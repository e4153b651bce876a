import Wireform.Settings.Override
import Mathlib.Data.List.Basic
import Mathlib.Data.List.Infix

/-!
# Names of variables

How the name of a variable is cut at double underscores: into parts that give the name again when they are put
together, and no other parts do.
-/
namespace Wireform.Settings

/-- Parts that a name is cut into: no part holds two underscores in a row, and no part but the last one ends in
an underscore, for a name is cut from the left. -/
structure Cut (parts : List (List Char)) : Prop where
  ne : parts ≠ []
  whole : ∀ p ∈ parts, ¬ ['_', '_'] <:+: p
  ends : ∀ p ∈ parts.dropLast, p.getLast? ≠ some '_'

theorem splitUnderscores_ne_nil (cs : List Char) : splitUnderscores cs ≠ [] := by
  fun_cases splitUnderscores cs <;> simp [*]

theorem splitUnderscores_cons {c : Char} {cs part : List Char} {parts : List (List Char)}
    (h : ¬ ['_', '_'] <+: c :: cs) (hcs : splitUnderscores cs = part :: parts) :
    splitUnderscores (c :: cs) = (c :: part) :: parts := by
  rw [splitUnderscores, hcs]
  rintro rest rfl rfl
  exact h (List.prefix_append ['_', '_'] rest)

theorem splitUnderscores_part {p : List Char} (h : ¬ ['_', '_'] <:+: p) : splitUnderscores p = [p] := by
  induction p with
  | nil => rfl
  | cons c p ih =>
      have hp : ¬ ['_', '_'] <:+: p := fun hp => h (hp.trans (List.suffix_cons c p).isInfix)
      exact splitUnderscores_cons (fun hbegins => h hbegins.isInfix) (ih hp)

theorem splitUnderscores_append {p : List Char} (h : ¬ ['_', '_'] <:+: p) (hend : p.getLast? ≠ some '_')
    (rest : List Char) : splitUnderscores (p ++ '_' :: '_' :: rest) = p :: splitUnderscores rest := by
  induction p with
  | nil => rw [List.nil_append, splitUnderscores]
  | cons c p ih =>
      have hp : ¬ ['_', '_'] <:+: p := fun hp => h (hp.trans (List.suffix_cons c p).isInfix)
      have hstart : ¬ ['_', '_'] <+: c :: (p ++ '_' :: '_' :: rest) := by
        intro hbegins
        rw [List.cons_prefix_cons] at hbegins
        obtain ⟨rfl, hbegins⟩ := hbegins
        cases p with
        | nil => exact hend rfl
        | cons c' p =>
            rw [List.cons_append, List.cons_prefix_cons] at hbegins
            obtain ⟨rfl, -⟩ := hbegins
            exact h (List.prefix_append ['_', '_'] p).isInfix
      refine splitUnderscores_cons hstart (ih hp ?_)
      cases p with
      | nil => simp
      | cons c' p => simpa using hend

/-- Parts that were put together are found again. -/
theorem splitUnderscores_intercalate {parts : List (List Char)} (h : Cut parts) :
    splitUnderscores (['_', '_'].intercalate parts) = parts := by
  induction parts with
  | nil => exact absurd rfl h.ne
  | cons p parts ih =>
      obtain ⟨-, hwhole, hends⟩ := h
      rw [List.forall_mem_cons] at hwhole
      cases parts with
      | nil =>
          rw [List.intercalate_singleton]
          exact splitUnderscores_part hwhole.1
      | cons q parts =>
          rw [List.dropLast_cons_of_ne_nil (List.cons_ne_nil _ _), List.forall_mem_cons] at hends
          rw [List.intercalate_cons_of_ne_nil (List.cons_ne_nil _ _), List.append_assoc]
          have := splitUnderscores_append hwhole.1 hends.1 (['_', '_'].intercalate (q :: parts))
          rw [ih ⟨List.cons_ne_nil _ _, hwhole.2, hends.2⟩] at this
          exact this

theorem intercalate_cons_cons (c : Char) (part : List Char) (parts : List (List Char)) :
    ['_', '_'].intercalate ((c :: part) :: parts) = c :: ['_', '_'].intercalate (part :: parts) := by
  cases parts with
  | nil => rfl
  | cons q parts => simp only [List.intercalate_cons_of_ne_nil (List.cons_ne_nil _ _), List.cons_append]

theorem prefix_intercalate (part : List Char) (parts : List (List Char)) :
    part <+: ['_', '_'].intercalate (part :: parts) := by
  cases parts with
  | nil =>
      rw [List.intercalate_singleton]
  | cons q parts =>
      rw [List.intercalate_cons_of_ne_nil (List.cons_ne_nil _ _), List.append_assoc]
      exact List.prefix_append _ _

/-- A character in front of the first part, where no cut falls on it. -/
theorem Cut.cons {c : Char} {part : List Char} {parts : List (List Char)} (h : Cut (part :: parts))
    (hstart : ¬ ['_', '_'] <+: c :: ['_', '_'].intercalate (part :: parts)) :
    Cut ((c :: part) :: parts) := by
  obtain ⟨-, hwhole, hends⟩ := h
  rw [List.forall_mem_cons] at hwhole
  have hpart : ¬ ['_', '_'] <:+: c :: part := by
    rw [List.infix_cons_iff, not_or]
    refine ⟨fun hbegins => hstart ?_, hwhole.1⟩
    exact hbegins.trans (List.cons_prefix_cons.mpr ⟨rfl, prefix_intercalate part parts⟩)
  refine ⟨List.cons_ne_nil _ _, List.forall_mem_cons.mpr ⟨hpart, hwhole.2⟩, ?_⟩
  cases parts with
  | nil => simp
  | cons q parts =>
      rw [List.dropLast_cons_of_ne_nil (List.cons_ne_nil _ _), List.forall_mem_cons] at hends ⊢
      refine ⟨?_, hends.2⟩
      cases part with
      | nil =>
          rintro ⟨⟩
          exact hstart (List.prefix_append ['_', '_'] _)
      | cons c' part => simpa using hends.1

/-- A name is cut into such parts. -/
theorem cut_splitUnderscores (cs : List Char) :
    Cut (splitUnderscores cs) ∧ ['_', '_'].intercalate (splitUnderscores cs) = cs := by
  fun_induction splitUnderscores cs with
  | case1 => exact ⟨⟨List.cons_ne_nil _ _, by simp, by simp⟩, rfl⟩
  | case2 cs ih =>
      obtain ⟨⟨hne, hwhole, hends⟩, hjoin⟩ := ih
      refine ⟨⟨List.cons_ne_nil _ _, List.forall_mem_cons.mpr ⟨by simp, hwhole⟩, ?_⟩, ?_⟩
      · rw [List.dropLast_cons_of_ne_nil hne]
        exact List.forall_mem_cons.mpr ⟨nofun, hends⟩
      · rw [List.intercalate_cons_of_ne_nil hne, hjoin]
        rfl
  | case3 c cs h hnil ih => exact absurd hnil (splitUnderscores_ne_nil cs)
  | case4 c cs h part parts hcs ih =>
      rw [hcs] at ih
      rw [intercalate_cons_cons, ih.2]
      refine ⟨ih.1.cons ?_, rfl⟩
      rw [ih.2, List.cons_prefix_cons]
      rintro ⟨rfl, rest, rfl⟩
      exact h rest rfl rfl

/-- The path of a variable: the name is the word and the parts with double underscores between all of them, and
the keys are the parts in small letters. -/
theorem overridePath?_eq_some {word name : String} {path : List String} :
    overridePath? word name = some path ↔ ∃ parts : List String, Cut (parts.map String.toList) ∧
      name = word ++ "__" ++ "__".intercalate parts ∧ path = parts.map Text.lowerCase := by
  have hjoin (parts : List String) : (word ++ "__" ++ "__".intercalate parts).toList =
      word.toList ++ ['_', '_'] ++ ['_', '_'].intercalate (parts.map String.toList) := by
    simp
  unfold overridePath?
  simp only [Option.ite_none_right_eq_some]
  constructor
  · rintro ⟨hbegins, hpath⟩
    obtain ⟨rest, hrest⟩ := List.isPrefixOf_iff_prefix.mp hbegins
    rw [← hrest, List.drop_left] at hpath
    obtain ⟨hcut, hsplit⟩ := cut_splitUnderscores rest
    have hparts : ((splitUnderscores rest).map String.ofList).map String.toList = splitUnderscores rest := by
      simp [Function.comp_def]
    refine ⟨(splitUnderscores rest).map String.ofList, by rwa [hparts], ?_, ?_⟩
    · rw [← String.toList_inj, hjoin, hparts, hsplit, hrest]
    · rw [List.map_map]
      exact (Option.some.inj hpath).symm
  · rintro ⟨parts, hcut, rfl, rfl⟩
    rw [hjoin]
    refine ⟨List.isPrefixOf_iff_prefix.mpr (List.prefix_append _ _), ?_⟩
    rw [List.drop_left, splitUnderscores_intercalate hcut, List.map_map]
    simp [Function.comp_def]

theorem ne_nil_of_overridePath? {word name : String} {path : List String}
    (h : overridePath? word name = some path) : path ≠ [] := by
  obtain ⟨parts, hcut, -, rfl⟩ := overridePath?_eq_some.mp h
  have := hcut.ne
  simpa using this

end Wireform.Settings
