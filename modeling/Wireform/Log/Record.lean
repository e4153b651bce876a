/-!
# Log records

What is reported while schemas are built and values are read: a level, the name of the reporting logger
and a message, with an attached failure if there is one. Logger names are paths with dots.
-/
namespace Wireform.Log

inductive FailureKind
  | value
  | key
  | config
deriving DecidableEq

structure Failure where
  kind : FailureKind
  text : String
deriving DecidableEq

structure Record where
  level : Int
  logger : String
  message : String
  failure : Option Failure
deriving DecidableEq

def debug : Int := 10
def info : Int := 20
def warning : Int := 30
def error : Int := 40
def critical : Int := 50

/-- The name of a level. Levels between the named ones are shown by number. -/
def levelName (level : Int) : String :=
  if level = critical then "CRITICAL"
  else if level = error then "ERROR"
  else if level = warning then "WARNING"
  else if level = info then "INFO"
  else if level = debug then "DEBUG"
  else if level = 0 then "NOTSET"
  else "Level " ++ toString level

/-- The name of the logger above all others of this library. -/
def packageLogger : String := "safe_portals"

def unionsLogger : String := packageLogger ++ ".schemas.unions"

def registryLogger : String := packageLogger ++ ".registry"

end Wireform.Log
