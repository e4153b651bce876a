/-!
# Patterns

Patterns of texts and the order in which a backtracking matcher tries them: what is repeated is repeated as
often as possible, what is optional is there if it can be, and the first of two alternatives goes before the second.
A match is told by the text that it leaves.
-/
namespace Wireform.Text

inductive Pattern
  | one (f : Char → Bool)
  | word (cs : List Char)
  | seq (p q : Pattern)
  | alt (p q : Pattern)
  | opt (p : Pattern)
  | many (f : Char → Bool)

namespace Pattern

/-- At least one character of a class. -/
def atLeastOne (f : Char → Bool) : Pattern :=
  seq (one f) (many f)

/-- What is left after each number of characters of a class, the longest run first. -/
def runs (f : Char → Bool) : List Char → List (List Char)
  | [] => [[]]
  | c :: cs => if f c then runs f cs ++ [c :: cs] else [c :: cs]

/-- What each match at the start of a text leaves of it, in the order in which they are tried. -/
def rests : Pattern → List Char → List (List Char)
  | one f, c :: cs => if f c then [cs] else []
  | one _, [] => []
  | word w, cs => if w.isPrefixOf cs then [cs.drop w.length] else []
  | seq p q, cs => (rests p cs).flatMap (rests q)
  | alt p q, cs => rests p cs ++ rests q cs
  | opt p, cs => rests p cs ++ [cs]
  | many f, cs => runs f cs

/-- What the first match leaves. -/
def after? (p : Pattern) (cs : List Char) : Option (List Char) :=
  (rests p cs).head?

/-- The text of the first match. -/
def group? (p : Pattern) (cs : List Char) : Option (List Char) :=
  (after? p cs).map fun rest => cs.take (cs.length - rest.length)

/-! ### First matches -/

section

variable {f : Char → Bool} {p q : Pattern}

@[simp] theorem after?_one (f : Char → Bool) (cs : List Char) :
    (one f).after? cs = cs.head?.bind fun c => if f c then some cs.tail else none := by
  cases cs with
  | nil => rfl
  | cons c cs => by_cases h : f c = true <;> simp [after?, rests, h]

@[simp] theorem after?_word (w cs : List Char) :
    (word w).after? cs = if w.isPrefixOf cs then some (cs.drop w.length) else none := by
  rw [after?, rests]
  split <;> rfl

@[simp] theorem after?_alt (p q : Pattern) (cs : List Char) :
    (alt p q).after? cs = (p.after? cs).or (q.after? cs) := by
  simp [after?, rests]

@[simp] theorem after?_opt (p : Pattern) (cs : List Char) :
    (opt p).after? cs = some ((p.after? cs).getD cs) := by
  rw [after?, rests, List.head?_append, after?]
  cases (rests p cs).head? <;> rfl

@[simp] theorem after?_many (f : Char → Bool) (cs : List Char) :
    (many f).after? cs = some (cs.dropWhile f) := by
  rw [after?, rests]
  induction cs with
  | nil => rfl
  | cons c cs ih => by_cases h : f c = true <;> simp [runs, h, ih]

theorem after?_seq_one (f : Char → Bool) (q : Pattern) (cs : List Char) :
    (seq (one f) q).after? cs = cs.head?.bind fun c => if f c then q.after? cs.tail else none := by
  cases cs with
  | nil => rfl
  | cons c cs => by_cases h : f c = true <;> simp [after?, rests, h]

/-- What is optional before a pattern is tried first, and left out if nothing fits behind it. -/
theorem after?_seq_opt (p q : Pattern) (cs : List Char) :
    (seq (opt p) q).after? cs = ((seq p q).after? cs).or (q.after? cs) := by
  simp [after?, rests]

/-- Behind the first match of a pattern there is the first one of another that matches everywhere. -/
theorem after?_seq (hq : ∀ cs, (q.after? cs).isSome) (p : Pattern) (cs : List Char) :
    (seq p q).after? cs = (p.after? cs).bind q.after? := by
  rw [after?, rests, after?]
  cases rests p cs with
  | nil => rfl
  | cons rest more =>
      rw [List.flatMap_cons, List.head?_append, List.head?_cons, Option.bind_some]
      exact Option.or_of_isSome (hq rest)

theorem after?_atLeastOne (f : Char → Bool) (cs : List Char) :
    (atLeastOne f).after? cs = if cs.takeWhile f = [] then none else some (cs.dropWhile f) := by
  rw [atLeastOne, after?_seq_one]
  cases cs with
  | nil => rfl
  | cons c cs => by_cases h : f c = true <;> simp [h]

end

end Pattern
end Wireform.Text
