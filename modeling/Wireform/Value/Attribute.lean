import Wireform.Value.Basic

/-!
# Attributes of values

What a value that is no map has under a name. A record has what it was given, numbers and times have parts
of their own, and null has nothing. Operations have names as well, but an operation is nothing that could
be written: it shows as a record without attributes.
-/
namespace Wireform

/-- The first and the last time of the calendar. -/
def DateTime.first : DateTime := ⟨0, by decide, none⟩

def DateTime.last : DateTime := ⟨microsOfCalendar - 1, by decide, none⟩

namespace Value

/-- What stands for an attribute that is no value. -/
def operation : Value := .record []

/-- Operations under their names. -/
def operations (names : List String) : List (String × Value) :=
  names.map fun name => (name, operation)

/-- The names of the operations on integers. -/
def intOperations : List String :=
  ["as_integer_ratio", "bit_count", "bit_length", "conjugate", "from_bytes", "to_bytes"]

def floatOperations : List String :=
  ["as_integer_ratio", "conjugate", "fromhex", "hex", "is_integer"]

def textOperations : List String :=
  ["capitalize", "casefold", "center", "count", "encode", "endswith", "expandtabs", "find", "format",
    "format_map", "index", "isalnum", "isalpha", "isascii", "isdecimal", "isdigit", "isidentifier",
    "islower", "isnumeric", "isprintable", "isspace", "istitle", "isupper", "join", "ljust", "lower",
    "lstrip", "maketrans", "partition", "removeprefix", "removesuffix", "replace", "rfind", "rindex",
    "rjust", "rpartition", "rsplit", "rstrip", "split", "splitlines", "startswith", "strip", "swapcase",
    "title", "translate", "upper", "zfill"]

def listOperations : List String :=
  ["append", "clear", "copy", "count", "extend", "index", "insert", "pop", "remove", "reverse", "sort"]

def tupleOperations : List String :=
  ["count", "index"]

def timeOperations : List String :=
  ["astimezone", "combine", "ctime", "date", "dst", "fromisocalendar", "fromisoformat", "fromordinal",
    "fromtimestamp", "isocalendar", "isoformat", "isoweekday", "now", "replace", "strftime", "strptime",
    "time", "timestamp", "timetuple", "timetz", "today", "toordinal", "tzname", "utcfromtimestamp",
    "utcnow", "utcoffset", "utctimetuple", "weekday"]

/-- The parts of an integer as a number among others. -/
def intAttributes (n : Int) : List (String × Value) :=
  [("real", .int n), ("imag", .int 0), ("numerator", .int n), ("denominator", .int 1)] ++
    operations intOperations

def floatAttributes (x : Double) : List (String × Value) :=
  [("real", .float x), ("imag", .float (.zero false))] ++ operations floatOperations

def timeAttributes (t : DateTime) : List (String × Value) :=
  let part (n : Nat) : Value := .int n
  [("year", part t.civil.year), ("month", part t.civil.month), ("day", part t.civil.day),
    ("hour", part t.hour), ("minute", part t.minute), ("second", part t.second),
    ("microsecond", part t.micro), ("fold", part 0),
    ("tzinfo", if t.offset.isSome then operation else .null),
    ("min", .datetime DateTime.first), ("max", .datetime DateTime.last),
    ("resolution", .record [("days", part 0), ("seconds", part 0), ("microseconds", part 1)])] ++
    operations timeOperations

def attributes : Value → List (String × Value)
  | .bool b => intAttributes (if b then 1 else 0)
  | .int n => intAttributes n
  | .float x => floatAttributes x
  | .str _ => operations textOperations
  | .list _ => operations listOperations
  | .tuple _ => operations tupleOperations
  | .datetime t => timeAttributes t
  | .record attributes => attributes
  | _ => []

end Value
end Wireform
