import Wireform.Proofs.Value

/-!
# Maps in maps

What lies at the end of a path of keys, and when two values are the same maps in maps but for the order of
their entries.
-/
namespace Wireform.Value

/-- What lies at the end of a path of keys through maps, if anything does. -/
def lookup? : List Value → Value → Option Value
  | [], v => some v
  | key :: keys, v => (find? key v.entries).bind (lookup? keys)

/-- Whatever lies on the way to something is a map. -/
theorem exists_map_of_lookup? {keys rest : List Value} (hrest : rest ≠ []) {v w : Value}
    (h : v.lookup? (keys ++ rest) = some w) : ∃ entries, v.lookup? keys = some (.map entries) := by
  induction keys generalizing v with
  | nil =>
      obtain ⟨key, rest, rfl⟩ := List.exists_cons_of_ne_nil hrest
      cases v with
      | map entries => exact ⟨entries, rfl⟩
      | _ => cases h
  | cons key keys ih =>
      obtain ⟨x, hx, hw⟩ := Option.bind_eq_some_iff.mp h
      obtain ⟨entries, hentries⟩ := ih hw
      refine ⟨entries, ?_⟩
      rw [lookup?, hx]
      exact hentries

/-! ### Maps that differ in the order of their entries -/

/-- The same maps in maps but for the order of entries: neighbours under different texts may have changed
places, anywhere inside. -/
inductive Same : Value → Value → Prop
  | refl (v : Value) : Same v v
  | swap {s t : String} (h : s ≠ t) (v w : Value) (before after : List (Value × Value)) :
      Same (.map (before ++ (.str s, v) :: (.str t, w) :: after))
        (.map (before ++ (.str t, w) :: (.str s, v) :: after))
  | under {v w : Value} (key : Value) (before after : List (Value × Value)) : Same v w →
      Same (.map (before ++ (key, v) :: after)) (.map (before ++ (key, w) :: after))
  | trans {u v w : Value} : Same u v → Same v w → Same u w

theorem Same.symm {v w : Value} (h : Same v w) : Same w v := by
  induction h with
  | refl v => exact .refl v
  | swap h v w before after => exact .swap h.symm w v before after
  | under key before after _ ih => exact ih.under key before after
  | trans _ _ ih ih' => exact ih'.trans ih

/-- What is found under a key is the same but for the order. -/
theorem Same.find? {v w : Value} (h : Same v w) (key : Value) :
    ∀ x, Value.find? key v.entries = some x → ∃ y, Value.find? key w.entries = some y ∧ Same x y := by
  induction h with
  | refl v => exact fun x hx => ⟨x, hx, .refl x⟩
  | @swap s t h v w before after =>
      intro x hx
      refine ⟨x, ?_, .refl x⟩
      rw [← hx]
      simp only [entries, find?_append, Value.find?]
      by_cases hs : sameKey (.str s) key = true
      · have ht : ¬ sameKey (.str t) key = true := fun ht =>
          h (Value.str.inj ((sameKey_str_left.mp hs).symm.trans (sameKey_str_left.mp ht)))
        rw [if_neg ht, if_neg ht]
      · rw [if_neg hs, if_neg hs]
  | @under v w k before after h ih =>
      intro x hx
      simp only [entries, find?_append, Value.find?] at hx ⊢
      cases hbefore : Value.find? key before with
      | some y =>
          rw [hbefore] at hx
          exact ⟨x, by simpa using hx, .refl x⟩
      | none =>
          rw [hbefore] at hx
          by_cases hk : sameKey k key = true
          · simp only [if_pos hk, Option.none_or, Option.some.injEq] at hx ⊢
            exact ⟨w, rfl, hx ▸ h⟩
          · simp only [if_neg hk, Option.none_or] at hx ⊢
            exact ⟨x, hx, .refl x⟩
  | trans _ _ ih ih' =>
      intro x hx
      obtain ⟨y, hy, hxy⟩ := ih x hx
      obtain ⟨z, hz, hyz⟩ := ih' y hy
      exact ⟨z, hz, hxy.trans hyz⟩

theorem Same.put {v w : Value} (h : Same v w) (name : String) (a : Value) :
    Same (.map (Value.put (.str name) a v.entries)) (.map (Value.put (.str name) a w.entries)) := by
  induction h with
  | refl v => exact .refl _
  | @swap s t h v w before after =>
      simp only [entries, put_append]
      split
      · exact .swap h v w _ after
      -- The text is that of one of the neighbours, or stands behind both.
      · by_cases hs : Value.str s = .str name
        · have ht : Value.str t ≠ .str name := fun ht => h (Value.str.inj (hs.trans ht.symm))
          rw [← hs] at ht ⊢
          rw [put_cons_self, put_cons_of_ne ht, put_cons_self]
          exact .swap h a w before after
        · by_cases ht : Value.str t = .str name
          · rw [← ht] at hs ⊢
            rw [put_cons_of_ne hs, put_cons_self, put_cons_self]
            exact .swap h v a before after
          · simp only [put_cons_of_ne hs, put_cons_of_ne ht]
            exact .swap h v w before _
  | @under v w key before after h _ =>
      simp only [entries, put_append]
      split
      · exact .under key _ after h
      · by_cases hkey : key = .str name
        · subst hkey
          rw [put_cons_self, put_cons_self]
          exact .refl _
        · rw [put_cons_of_ne hkey, put_cons_of_ne hkey]
          exact .under key before _ h
  | trans _ _ ih ih' => exact ih.trans ih'

theorem Same.put_value {v w : Value} (h : Same v w) (name : String) (entries : List (Value × Value)) :
    Same (.map (Value.put (.str name) v entries)) (.map (Value.put (.str name) w entries)) := by
  obtain ⟨before, after, hput⟩ := put_eq_append (α := Value) name entries
  rw [hput, hput]
  exact h.under _ _ _

/-- Paths lead to the same but for the order. -/
theorem Same.lookup? {v w : Value} (h : Same v w) (keys : List Value) :
    ∀ x, v.lookup? keys = some x → ∃ y, w.lookup? keys = some y ∧ Same x y := by
  induction keys generalizing v w with
  | nil =>
      rintro x ⟨⟩
      exact ⟨w, rfl, h⟩
  | cons key keys ih =>
      intro x hx
      obtain ⟨v', hv', hx⟩ := Option.bind_eq_some_iff.mp hx
      obtain ⟨w', hw', hsame⟩ := h.find? key v' hv'
      obtain ⟨y, hy, hxy⟩ := ih hsame x hx
      exact ⟨y, Option.bind_eq_some_iff.mpr ⟨w', hw', hy⟩, hxy⟩

theorem Same.map_entries {v w : Value} (h : Same v w) : Same (.map v.entries) (.map w.entries) := by
  induction h with
  | refl v => exact .refl _
  | swap h v w before after => exact .swap h v w before after
  | under key before after h _ => exact .under key before after h
  | trans _ _ ih ih' => exact ih.trans ih'

theorem Same.cons {v w : Value} (h : Same v w) (e : Value × Value) :
    Same (.map (e :: v.entries)) (.map (e :: w.entries)) := by
  induction h with
  | refl v => exact .refl _
  | swap h v w before after => exact .swap h v w (e :: before) after
  | under key before after h _ => exact .under key (e :: before) after h
  | trans _ _ ih ih' => exact ih.trans ih'

/-- Under different texts the order of setting shows only in the order of the entries. -/
theorem Same.put_comm {s t : String} (h : s ≠ t) (v w : Value) (entries : List (Value × Value)) :
    Same (.map (Value.put (.str t) w (Value.put (.str s) v entries)))
      (.map (Value.put (.str s) v (Value.put (.str t) w entries))) := by
  have hst : Value.str s ≠ .str t := fun hst => h (Value.str.inj hst)
  induction entries with
  | nil =>
      simp only [Value.put.eq_1, put_cons_of_ne hst, put_cons_of_ne hst.symm]
      exact .swap h v w [] []
  | cons e entries ih =>
      obtain ⟨key, u⟩ := e
      by_cases hs : key = .str s
      · subst hs
        rw [put_cons_self, put_cons_of_ne hst, put_cons_of_ne hst, put_cons_self]
        exact .refl _
      · rw [put_cons_of_ne hs]
        by_cases ht : key = .str t
        · subst ht
          rw [put_cons_self, put_cons_self, put_cons_of_ne hs]
          exact .refl _
        · rw [put_cons_of_ne ht, put_cons_of_ne ht, put_cons_of_ne hs]
          exact ih.cons (key, u)

theorem Same.getD {v w : Value} (h : Same v w) (name : String) :
    Same (Value.getD name v.entries) (Value.getD name w.entries) := by
  have hfind := h.find? (.str name)
  have hback := h.symm.find? (.str name)
  simp only [find?_str] at hfind hback
  simp only [Value.getD]
  cases hv : get? name v.entries with
  | some x =>
      obtain ⟨y, hy, hxy⟩ := hfind x hv
      rw [hy]
      exact hxy
  | none =>
      cases hw : get? name w.entries with
      | none => exact .refl _
      | some y =>
          obtain ⟨x, hx, -⟩ := hback y hw
          rw [hv] at hx
          cases hx

end Wireform.Value
