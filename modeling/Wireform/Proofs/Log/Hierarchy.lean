import Wireform.Log.Logger

/-!
# Loggers below the package logger

A logger is below the package logger if going from known parent to known parent comes to it. The package logger
is known, so its name followed by a dot and anything but a second dot is always the name of such a logger, and
every such name continues that of the package logger with a dot.
-/
namespace Wireform.Log

variable {names : List String} {name : String}

/-- `Below names name`: going from parent to parent among the known names, one comes from the name to the
package logger. -/
inductive Below (names : List String) : String → Prop
  | package : Below names packageLogger
  | child {name parent : String} : parent? names name = some parent → Below names parent →
      Below names name

/-- What a name continues stands before one of its dots. -/
theorem mem_beginnings {cs : List Char} {b : String} (h : b ∈ beginnings cs) :
    ∃ rest, cs.reverse = b.toList ++ '.' :: rest := by
  fun_induction beginnings cs with
  | case1 c cs ih =>
      rcases List.mem_cons.mp h with rfl | h
      · exact ⟨[], by simp⟩
      · obtain ⟨rest, hrest⟩ := ih h
        exact ⟨rest ++ [c, '.'], by simp [hrest]⟩
  | case2 c cs _ ih =>
      obtain ⟨rest, hrest⟩ := ih h
      exact ⟨rest ++ [c], by simp [hrest]⟩
  | case3 => cases h

theorem parent?_eq_some {parent : String} (h : parent? names name = some parent) :
    ∃ rest, name = parent ++ "." ++ rest := by
  obtain ⟨rest, hrest⟩ := mem_beginnings (List.mem_of_find?_eq_some h)
  refine ⟨String.ofList rest, String.toList_inj.mp ?_⟩
  simpa using hrest

theorem length_parent?_lt {parent : String} (h : parent? names name = some parent) :
    parent.length < name.length := by
  obtain ⟨rest, rfl⟩ := parent?_eq_some h
  simp only [String.length_append]
  have hdot : ".".length = 1 := rfl
  omega

/-- As many steps as the name has characters are enough to come to the package logger. -/
theorem isOfPackage_iff {more : Nat} (hmore : name.length < more) :
    isOfPackage names more name = true ↔ Below names name := by
  induction more generalizing name with
  | zero => omega
  | succ more ih =>
      by_cases hpackage : name = packageLogger
      · subst hpackage
        simp [isOfPackage, Below.package]
      · have hstep : isOfPackage names (more + 1) name = true ↔
            ∃ parent, parent? names name = some parent ∧ isOfPackage names more parent = true := by
          rw [isOfPackage, beq_eq_false_iff_ne.mpr hpackage, Bool.false_or]
          cases parent? names name <;> simp
        rw [hstep]
        constructor
        · rintro ⟨parent, hparent, hbelow⟩
          have hshorter := length_parent?_lt hparent
          exact .child hparent ((ih (by omega)).mp hbelow)
        · intro hbelow
          cases hbelow with
          | package => exact absurd rfl hpackage
          | child hparent hbelow =>
              have hshorter := length_parent?_lt hparent
              exact ⟨_, hparent, (ih (by omega)).mpr hbelow⟩

/-- A logger below the package logger has the name of the package logger, or continues it with a dot. -/
theorem Below.eq_or_continues (h : Below names name) :
    name = packageLogger ∨ ∃ rest, name = packageLogger ++ "." ++ rest := by
  induction h with
  | package => exact .inl rfl
  | child hparent _ ih =>
      obtain ⟨rest, rfl⟩ := parent?_eq_some hparent
      rcases ih with rfl | ⟨more, rfl⟩
      · exact .inr ⟨rest, rfl⟩
      · exact .inr ⟨more ++ "." ++ rest, by simp only [String.append_assoc]⟩

theorem beginnings_cons_of_ne {c : Char} (hc : c ≠ '.') (cs : List Char) :
    beginnings (c :: cs) = beginnings cs := by
  cases cs <;> simp [beginnings, hc]

theorem getLast?_ne_of_cons {c d : Char} {cs : List Char} (h : (c :: cs).getLast? ≠ some d) :
    cs.getLast? ≠ some d := by
  cases cs with
  | nil => simp
  | cons e cs => simpa using h

/-- Among the names that a name continues is what stands before a dot with no second dot behind it. The longer
ones continue it in the same way. -/
theorem beginnings_append {start : String} (hstart : start ≠ "") {cs : List Char}
    (hcs : cs.getLast? ≠ some '.') :
    ∃ longer others, beginnings (cs ++ '.' :: start.toList.reverse) = longer ++ start :: others ∧
      ∀ b ∈ longer, ∃ rest : List Char, b.toList = start.toList ++ '.' :: rest ∧
        rest.length < cs.length ∧ rest.head? ≠ some '.' := by
  -- The cases are those of `beginnings` on the part after the dot, read from its end.
  fun_induction beginnings cs with
  | case1 c cs ih =>
      have hlast : (c :: cs).getLast? ≠ some '.' := getLast?_ne_of_cons hcs
      obtain ⟨longer, others, heq, hlonger⟩ := ih (getLast?_ne_of_cons hlast)
      refine ⟨String.ofList ((c :: cs) ++ '.' :: start.toList.reverse).reverse :: longer, others, ?_, ?_⟩
      · rw [List.cons_append, List.cons_append, beginnings, heq]
        rfl
      · refine List.forall_mem_cons.mpr ⟨⟨(c :: cs).reverse, by simp, by simp, ?_⟩, fun b hb => ?_⟩
        · rw [List.head?_reverse]
          exact hlast
        · obtain ⟨rest, hb, hlength, hhead⟩ := hlonger b hb
          exact ⟨rest, hb, by simp only [List.length_cons]; omega, hhead⟩
  | case2 c cs hdot ih =>
      have hc : c ≠ '.' := by
        rintro rfl
        cases cs with
        | nil => simp at hcs
        | cons d cs => exact hdot d cs rfl rfl
      obtain ⟨longer, others, heq, hlonger⟩ := ih (getLast?_ne_of_cons hcs)
      refine ⟨longer, others, ?_, fun b hb => ?_⟩
      · rw [List.cons_append, beginnings_cons_of_ne hc, heq]
      · obtain ⟨rest, hb, hlength, hhead⟩ := hlonger b hb
        exact ⟨rest, hb, by simp only [List.length_cons]; omega, hhead⟩
  | case3 =>
      obtain ⟨c, rest, hreverse⟩ : ∃ c rest, start.toList.reverse = c :: rest := by
        refine List.exists_cons_of_ne_nil fun hnil => hstart (String.toList_inj.mp ?_)
        simpa using hnil
      refine ⟨[], beginnings rest, ?_, by simp⟩
      rw [List.nil_append, hreverse, beginnings, ← hreverse]
      simp

/-- What continues the name of the package logger with a dot and no second dot is below it. -/
theorem below_of_continues (hknown : packageLogger ∈ names) {rest : String}
    (hrest : rest.toList.head? ≠ some '.') : Below names (packageLogger ++ "." ++ rest) := by
  induction hlength : rest.length using Nat.strongRecOn generalizing rest with
  | ind n ih =>
      have hlast : rest.toList.reverse.getLast? ≠ some '.' := by rwa [List.getLast?_reverse]
      have hpackage : packageLogger ≠ "" := by decide
      obtain ⟨longer, others, heq, hlonger⟩ := beginnings_append hpackage hlast
      have hparent : parent? names (packageLogger ++ "." ++ rest) =
          (longer ++ packageLogger :: others).find? names.contains := by
        rw [parent?, ← heq]
        simp
      -- The package logger is among the known names, so the parent is this one or a longer name.
      cases hfound : longer.find? names.contains with
      | some b =>
          obtain ⟨more, hmore, hshorter, hhead⟩ := hlonger b (List.mem_of_find?_eq_some hfound)
          have hb : b = packageLogger ++ "." ++ String.ofList more :=
            String.toList_inj.mp (by simpa using hmore)
          rw [List.find?_append, hfound, Option.some_or] at hparent
          refine .child hparent ?_
          rw [hb]
          refine ih (String.ofList more).length ?_ (by simpa using hhead) rfl
          rwa [List.length_reverse, String.length_toList, hlength, ← String.length_ofList] at hshorter
      | none =>
          refine .child (hparent.trans ?_) .package
          rw [List.find?_append, hfound, Option.none_or, List.find?_cons_of_pos]
          simpa using hknown

end Wireform.Log
