import Wireform.Value.Basic

/-!
# Entries under texts

Looking up and setting what belongs to a text among the entries of a map, and what remains of the keys.
-/
namespace Wireform.Value

variable {α : Type}

/-- Only a text is the same key as a text. -/
@[simp] theorem sameKey_str {key : Value} {name : String} :
    sameKey key (.str name) = true ↔ key = .str name := by
  cases key <;> simp [sameKey, number?]

theorem sameKey_str_left {key : Value} {name : String} :
    sameKey (.str name) key = true ↔ key = .str name := by
  cases key with
  | str s =>
      rw [sameKey, beq_iff_eq, str.injEq]
      exact eq_comm
  | _ => simp [sameKey, number?]

theorem put_cons_self (name : String) (a b : α) (entries : List (Value × α)) :
    put (.str name) a ((.str name, b) :: entries) = (.str name, a) :: entries := by
  rw [put, if_pos (sameKey_str.mpr rfl)]

theorem put_cons_of_ne {key : Value} {name : String} (h : key ≠ .str name) (a b : α)
    (entries : List (Value × α)) :
    put (.str name) a ((key, b) :: entries) = (key, b) :: put (.str name) a entries := by
  rw [put, if_neg fun hsame => h (sameKey_str.mp hsame)]

theorem put_put (name : String) (a b : α) (entries : List (Value × α)) :
    put (.str name) b (put (.str name) a entries) = put (.str name) b entries := by
  induction entries with
  | nil => rw [put, put_cons_self, put]
  | cons e entries ih =>
      obtain ⟨key, c⟩ := e
      by_cases h : key = .str name
      · subst h
        simp only [put_cons_self]
      · simp only [put_cons_of_ne h, ih]

/-- Setting something under a text replaces or adds one entry, wherever its place is. -/
theorem put_eq_append (name : String) (entries : List (Value × α)) :
    ∃ before after, ∀ a, put (.str name) a entries = before ++ (.str name, a) :: after := by
  induction entries with
  | nil => exact ⟨[], [], fun _ => rfl⟩
  | cons e entries ih =>
      obtain ⟨key, b⟩ := e
      by_cases h : key = .str name
      · subst h
        exact ⟨[], entries, fun a => put_cons_self name a b entries⟩
      · obtain ⟨before, after, hput⟩ := ih
        refine ⟨(key, b) :: before, after, fun a => ?_⟩
        rw [put_cons_of_ne h, hput, List.cons_append]

theorem find?_put_self (name : String) (a : α) (entries : List (Value × α)) :
    find? (.str name) (put (.str name) a entries) = some a := by
  induction entries with
  | nil => rw [put, find?, if_pos (sameKey_str.mpr rfl)]
  | cons e entries ih =>
      obtain ⟨key, b⟩ := e
      by_cases h : sameKey key (.str name) = true
      · rw [put, if_pos h, find?, if_pos h]
      · rw [put, if_neg h, find?, if_neg h, ih]

theorem put_of_find? {name : String} {a : α} {entries : List (Value × α)}
    (h : find? (.str name) entries = some a) : put (.str name) a entries = entries := by
  induction entries with
  | nil => cases h
  | cons e entries ih =>
      obtain ⟨key, b⟩ := e
      rw [find?] at h
      by_cases hkey : sameKey key (.str name) = true
      · rw [if_pos hkey] at h
        cases h
        rw [put, if_pos hkey]
      · rw [if_neg hkey] at h
        rw [put, if_neg hkey, ih h]

theorem find?_put_of_ne {key : Value} {name : String} (h : key ≠ .str name) (a : α)
    (entries : List (Value × α)) : find? key (put (.str name) a entries) = find? key entries := by
  have hname : sameKey (.str name) key ≠ true := fun hsame => h (sameKey_str_left.mp hsame)
  induction entries with
  | nil => simp only [put, find?, if_neg hname]
  | cons e entries ih =>
      obtain ⟨k, b⟩ := e
      by_cases hk : k = .str name
      · subst hk
        rw [put_cons_self, find?, if_neg hname, find?, if_neg hname]
      · rw [put_cons_of_ne hk, find?, find?, ih]

theorem find?_append (key : Value) (es fs : List (Value × α)) :
    find? key (es ++ fs) = (find? key es).or (find? key fs) := by
  induction es with
  | nil => rfl
  | cons e es ih =>
      rw [List.cons_append, find?, find?, ih]
      split <;> rfl

theorem put_append (name : String) (a : α) (es fs : List (Value × α)) :
    put (.str name) a (es ++ fs) =
      if (find? (.str name) es).isSome then put (.str name) a es ++ fs else es ++ put (.str name) a fs := by
  induction es with
  | nil => rfl
  | cons e es ih =>
      obtain ⟨key, b⟩ := e
      by_cases h : sameKey key (.str name) = true
      · simp only [List.cons_append, put, find?, if_pos h, Option.isSome_some, if_true]
      · simp only [List.cons_append, put, find?, if_neg h, ih]
        split <;> rfl

/-- Setting what belongs to a key keeps the keys and adds that one at the end if it is not among them. -/
theorem keys_put (key : Value) (a : α) (entries : List (Value × α)) :
    (put key a entries).map Prod.fst =
      if entries.any fun e => sameKey e.1 key then entries.map Prod.fst
      else entries.map Prod.fst ++ [key] := by
  induction entries with
  | nil => rfl
  | cons e entries ih =>
      obtain ⟨k, b⟩ := e
      by_cases h : sameKey k key = true
      · simp [put, h]
      · simp only [put, if_neg h, List.map_cons, ih, List.any_cons]
        simp only [Bool.not_eq_true] at h
        simp only [h, Bool.false_or]
        split <;> rfl

/-- No two keys of a run of entries are the same. -/
def DistinctKeys (entries : List (Value × α)) : Prop :=
  entries.Pairwise fun e f => sameKey e.1 f.1 = false

theorem DistinctKeys.put {entries : List (Value × α)} (h : DistinctKeys entries) (key : Value) (a : α) :
    DistinctKeys (put key a entries) := by
  unfold DistinctKeys at h ⊢
  rw [← List.pairwise_map (R := fun k l => sameKey k l = false)] at h ⊢
  rw [keys_put]
  split
  · exact h
  · rename_i hnew
    rw [List.pairwise_append]
    refine ⟨h, List.pairwise_singleton _ _, ?_⟩
    intro k hk l hl
    obtain ⟨e, he, rfl⟩ := List.mem_map.mp hk
    rw [List.mem_singleton.mp hl]
    simp only [List.any_eq_true, not_exists, not_and, Bool.not_eq_true] at hnew
    exact hnew e he

theorem distinctKeys_distinct (pairs : List (Value × α)) : DistinctKeys (distinct pairs) := by
  have hfold : ∀ pairs entries : List (Value × α), DistinctKeys entries →
      DistinctKeys (pairs.foldl (fun entries p => Value.put p.1 p.2 entries) entries) := by
    intro pairs
    induction pairs with
    | nil => exact fun _ h => h
    | cons p pairs ih => exact fun entries h => ih _ (h.put p.1 p.2)
  exact hfold pairs [] List.Pairwise.nil

/-- What holds of all keys, and of all that belongs to them, holds once the keys are made distinct. -/
theorem forall_distinct {P : Value → Prop} {Q : α → Prop} {pairs : List (Value × α)}
    (h : ∀ p ∈ pairs, P p.1 ∧ Q p.2) : ∀ e ∈ distinct pairs, P e.1 ∧ Q e.2 := by
  have hput : ∀ (key : Value) (a : α) (entries : List (Value × α)), P key ∧ Q a →
      (∀ e ∈ entries, P e.1 ∧ Q e.2) → ∀ e ∈ put key a entries, P e.1 ∧ Q e.2 := by
    intro key a entries ha
    induction entries with
    | nil => simpa [put] using ha
    | cons e entries ih =>
        intro he
        rw [List.forall_mem_cons] at he
        rw [put]
        split
        · exact List.forall_mem_cons.mpr ⟨⟨he.1.1, ha.2⟩, he.2⟩
        · exact List.forall_mem_cons.mpr ⟨he.1, ih he.2⟩
  have hfold : ∀ pairs entries : List (Value × α), (∀ p ∈ pairs, P p.1 ∧ Q p.2) →
      (∀ e ∈ entries, P e.1 ∧ Q e.2) →
      ∀ e ∈ pairs.foldl (fun entries p => put p.1 p.2 entries) entries, P e.1 ∧ Q e.2 := by
    intro pairs
    induction pairs with
    | nil => exact fun _ _ he => he
    | cons p pairs ih =>
        intro entries hp he
        rw [List.forall_mem_cons] at hp
        exact ih _ hp.2 (hput p.1 p.2 entries hp.1 he)
  exact hfold pairs [] h (List.forall_mem_nil _)

/-- Making keys distinct does not look at what belongs to them. -/
theorem distinct_map {β : Type} (f : α → β) (pairs : List (Value × α)) :
    distinct (pairs.map fun p => (p.1, f p.2)) = (distinct pairs).map fun p => (p.1, f p.2) := by
  have hput (key : Value) (a : α) (entries : List (Value × α)) :
      put key (f a) (entries.map fun e => (e.1, f e.2)) = (put key a entries).map fun e => (e.1, f e.2) := by
    induction entries with
    | nil => rfl
    | cons e entries ih =>
        rw [List.map_cons, put, put, ih]
        split <;> rfl
  have hfold : ∀ pairs entries : List (Value × α),
      (pairs.map fun p => (p.1, f p.2)).foldl (fun entries p => put p.1 p.2 entries)
          (entries.map fun e => (e.1, f e.2)) =
        (pairs.foldl (fun entries p => put p.1 p.2 entries) entries).map fun e => (e.1, f e.2) := by
    intro pairs
    induction pairs with
    | nil => exact fun _ => rfl
    | cons p pairs ih =>
        intro entries
        rw [List.map_cons, List.foldl_cons, List.foldl_cons, hput, ih]
  exact hfold pairs []

theorem get?_cons (name : String) (e : Value × Value) (entries : List (Value × Value)) :
    get? name (e :: entries) = if sameKey e.1 (.str name) then some e.2 else get? name entries := by
  obtain ⟨k, v⟩ := e
  cases k <;> simp [get?, sameKey, number?]

theorem find?_str (name : String) (entries : List (Value × Value)) :
    find? (.str name) entries = get? name entries := by
  induction entries with
  | nil => rfl
  | cons e entries ih => rw [find?, get?_cons, ih]

/-- What was set is found. -/
@[simp] theorem get?_put_self (name : String) (v : Value) (entries : List (Value × Value)) :
    get? name (put (.str name) v entries) = some v := by
  induction entries with
  | nil => simp [put, get?_cons]
  | cons e entries ih =>
      obtain ⟨k, w⟩ := e
      by_cases h : sameKey k (.str name) = true
      · rw [put, if_pos h, get?_cons, if_pos h]
      · rw [put, if_neg h, get?_cons, if_neg h, ih]

/-- What is under another text stays. -/
theorem get?_put_of_ne {name other : String} (h : other ≠ name) (v : Value)
    (entries : List (Value × Value)) :
    get? other (put (.str name) v entries) = get? other entries := by
  induction entries with
  | nil => simp [put, get?, h.symm]
  | cons e entries ih =>
      obtain ⟨k, w⟩ := e
      by_cases hk : sameKey k (.str name) = true
      · obtain rfl := sameKey_str.mp hk
        simp [put, get?_cons, h.symm]
      · rw [put, if_neg hk, get?_cons, get?_cons, ih]

theorem any_sameKey_of_get? {name : String} {v : Value} {entries : List (Value × Value)}
    (h : get? name entries = some v) : entries.any (fun e => sameKey e.1 (.str name)) = true := by
  induction entries with
  | nil => cases h
  | cons e entries ih =>
      rw [get?_cons] at h
      rw [List.any_cons, Bool.or_eq_true]
      by_cases hk : sameKey e.1 (.str name) = true
      · exact .inl hk
      · rw [if_neg hk] at h
        exact .inr (ih h)

theorem mem_of_get? {name : String} {v : Value} {entries : List (Value × Value)}
    (h : get? name entries = some v) : (.str name, v) ∈ entries := by
  induction entries with
  | nil => cases h
  | cons e entries ih =>
      rw [get?_cons] at h
      by_cases hk : sameKey e.1 (.str name) = true
      · rw [if_pos hk] at h
        have he : e = (.str name, v) := Prod.ext (sameKey_str.mp hk) (Option.some.inj h)
        exact he ▸ List.mem_cons_self
      · rw [if_neg hk] at h
        exact List.mem_cons_of_mem _ (ih h)

/-- Where no key occurs twice, only what was set belongs to a text that was set. -/
theorem mem_put {name : String} {a : α} {entries : List (Value × α)} (h : (entries.map Prod.fst).Nodup) :
    ∀ e ∈ put (.str name) a entries, e = (.str name, a) ∨ (e ∈ entries ∧ e.1 ≠ .str name) := by
  induction entries with
  | nil => simp [put]
  | cons e entries ih =>
      simp only [List.map_cons, List.nodup_cons] at h
      by_cases hk : sameKey e.1 (.str name) = true
      · rw [put, if_pos hk, List.forall_mem_cons]
        have hkey := sameKey_str.mp hk
        refine ⟨.inl (Prod.ext hkey rfl), fun e' he' => .inr ⟨List.mem_cons_of_mem _ he', fun heq => ?_⟩⟩
        exact h.1 (hkey.trans heq.symm ▸ List.mem_map_of_mem he')
      · rw [put, if_neg hk, List.forall_mem_cons]
        have hne : e.1 ≠ .str name := fun heq => hk (sameKey_str.mpr heq)
        refine ⟨.inr ⟨List.mem_cons_self, hne⟩, fun e' he' => ?_⟩
        exact (ih h.2 e' he').imp_right fun hrest => ⟨List.mem_cons_of_mem _ hrest.1, hrest.2⟩

theorem getD_cons (name : String) (e : Value × Value) (entries : List (Value × Value)) :
    getD name (e :: entries) = if sameKey e.1 (.str name) then e.2 else getD name entries := by
  rw [getD, get?_cons]
  split <;> rfl

@[simp] theorem getD_put_self (name : String) (v : Value) (entries : List (Value × Value)) :
    getD name (put (.str name) v entries) = v := by
  rw [getD, get?_put_self, Option.getD_some]

theorem getD_put_of_ne {name other : String} (h : other ≠ name) (v : Value)
    (entries : List (Value × Value)) :
    getD other (put (.str name) v entries) = getD other entries := by
  rw [getD, get?_put_of_ne h, getD]

/-- The entries of a map; anything else has none. -/
def entries : Value → List (Value × Value)
  | .map entries => entries
  | _ => []

theorem entries_eq_nil {v : Value} (h : v ≠ .map v.entries) : v.entries = [] := by
  cases v with
  | map es => exact absurd rfl h
  | _ => rfl

/-- Entries under texts, with what a function has for each name. -/
def named (names : List String) (g : String → Value) : List (Value × Value) :=
  names.map fun name => (.str name, g name)

@[simp] theorem keys_named (names : List String) (g : String → Value) :
    (named names g).map Prod.fst = names.map Value.str := by
  simp [named]

theorem getD_named {names : List String} {name : String} (h : name ∈ names) (g : String → Value) :
    getD name (named names g) = g name := by
  induction names with
  | nil => simp at h
  | cons n names ih =>
      simp only [named, List.map_cons, getD_cons, sameKey_str, Value.str.injEq]
      by_cases hn : n = name
      · rw [if_pos hn, hn]
      · rw [if_neg hn]
        exact ih ((List.mem_cons.mp h).resolve_left (Ne.symm hn))

/-- Entries under the same texts are the same if the functions agree on these. -/
theorem named_inj {names : List String} {g h : String → Value} :
    named names g = named names h ↔ ∀ name ∈ names, g name = h name := by
  simp [named]

end Wireform.Value
