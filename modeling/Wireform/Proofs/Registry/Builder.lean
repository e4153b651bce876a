import Wireform.Proofs.Registry.Attempt
import Wireform.Proofs.Registry.Books

/-!
# Building with books

Building a document with books comes to an end, with the books in order at every moment. A builder is compared
with the operations that raise, step by step: it gives what they give, keeps what they keep, and the run that
it leaves goes on with the run that it found. For a definition this goes down its parts to the names that it
mentions. For a name it is an induction on the steps: the names in progress are different and have definitions,
so there is a step left for every name that is begun.
-/
namespace Wireform.Registry.Builder

variable {α β : Type} {definitions : List (String × Value)} {inProgress : List String} {name : String}

def Run.progress (r : Run) : Progress :=
  ⟨r.books.built, r.log⟩

/-- From a run, both come to the same end, and the run continues. -/
def Ends (definitions : List (String × Value)) (r : Run) (x : Building α) (y : Attempting α) : Prop :=
  ∃ result after, x r = some (result, after) ∧ r.Continues definitions after ∧
    y.run.run r.progress = (result, after.progress)

/-- Both end alike from every run that is in order where the calls under way are for the names in progress. -/
def Follows (definitions : List (String × Value)) (inProgress : List String) (x : Building α)
    (y : Attempting α) : Prop :=
  ∀ r : Run, r.InOrder definitions → r.books.inProgress = inProgress → r.names = inProgress →
    Ends definitions r x y

/-! ### Operations apart from the books -/

/-- What is done is left as it is. -/
def Quiet (y : Attempting α) : Prop :=
  ∀ p, (y.run.run p).2.built = p.built

theorem quiet_pure (a : α) : Quiet (pure a) := fun _ => rfl

theorem quiet_throw (e : Raised) : Quiet (throw e : Attempting α) := fun _ => rfl

theorem Quiet.bind {y : Attempting α} {g : α → Attempting β} (h : Quiet y) (hnext : ∀ a, Quiet (g a)) :
    Quiet (y >>= g) := by
  intro p
  rw [run_bind, ← h p]
  cases y.run.run p with
  | mk result q =>
      cases result with
      | ok a => exact hnext a q
      | error e => rfl

theorem quiet_report (records : List Log.Record) : Quiet (Attempting.report records) := fun _ => rfl

theorem quiet_raising (kind : FaultKind) (found : Option α) : Quiet (Attempting.raising kind found) := by
  cases found <;> exact fun _ => rfl

theorem quiet_combining (x : Except BuildFault α) : Quiet (Attempting.combining x) := by
  cases x <;> exact fun _ => rfl

theorem quiet_combinator (location : Location) (key : Value) :
    Quiet (Attempting.combinator location key) := by
  cases key with
  | str name =>
      rw [Attempting.combinator]
      split
      · exact quiet_pure _
      · exact quiet_throw _
  | _ => exact (quiet_raising _ _).bind fun _ => quiet_throw _

theorem quiet_one (c : Combinator) (mk : Schema → Schema) (s : Schema) : Quiet (Attempting.one c mk s) :=
  (quiet_combining _).bind fun _ => quiet_pure _

theorem quiet_keyed (c : Combinator) (mk : List (String × Schema) → Schema)
    (fields : List (String × Schema)) : Quiet (Attempting.keyed c mk fields) :=
  (quiet_combining _).bind fun _ => quiet_pure _

theorem quiet_indexed (positions : List Schema) : Quiet (Attempting.indexed positions) :=
  (quiet_combining _).bind fun _ => quiet_pure _

theorem quiet_enumerated (inside : Location) (argument : Value) :
    Quiet (Attempting.enumerated inside argument) := by
  cases argument with
  | list items => exact (quiet_combining _).bind fun _ => quiet_pure _
  | map entries => exact (quiet_combining _).bind fun _ => quiet_pure _
  | _ => exact quiet_throw _

theorem quiet_tagged (branches : List Schema.Branch) : Quiet (Attempting.tagged branches) :=
  (quiet_combining _).bind fun _ => (quiet_report _).bind fun _ => quiet_pure _

/-! ### Operations one after the other -/

theorem follows_pure (a : α) : Follows definitions inProgress (pure a) (pure a) :=
  fun r hr _ _ => ⟨.ok a, r, rfl, .refl hr, rfl⟩

theorem follows_throw (e : Raised) :
    Follows definitions inProgress (throw e : Building α) (throw e) :=
  fun r hr _ _ => ⟨.error e, r, rfl, .refl hr, rfl⟩

theorem Follows.bind {x : Building α} {y : Attempting α} {f : α → Building β} {g : α → Attempting β}
    (h : Follows definitions inProgress x y)
    (hnext : ∀ a, (∃ p q, Yields y p a q) → Follows definitions inProgress (f a) (g a)) :
    Follows definitions inProgress (x >>= f) (y >>= g) := by
  intro r hr hbooks hnames
  obtain ⟨result, after, hx, hcontinues, hy⟩ := h r hr hbooks hnames
  cases result with
  | error e =>
      refine ⟨.error e, after, ?_, hcontinues, ?_⟩
      · rw [bind_apply, hx]
        rfl
      · rw [run_bind, hy]
  | ok a =>
      have hnames' : after.names = inProgress := by rw [Run.names, hcontinues.callers, ← Run.names, hnames]
      obtain ⟨result, last, hx', hcontinues', hy'⟩ :=
        hnext a ⟨_, _, hy⟩ after hcontinues.inOrder (hcontinues.inProgress.trans hbooks) hnames'
      refine ⟨result, last, ?_, hcontinues.trans hcontinues', ?_⟩
      · rw [bind_apply, hx]
        exact hx'
      · rw [run_bind, hy]
        exact hy'

theorem follows_aside {y : Attempting α} (h : Quiet y) : Follows definitions inProgress (aside y) y := by
  intro r hr _ _
  refine ⟨_, _, rfl, .report hr _, Prod.ext rfl ?_⟩
  exact congrArg (fun built => Progress.mk built (y.run.run r.progress).2.log) (h r.progress)

theorem Follows.translating {x : Building α} {y : Attempting α} (h : Follows definitions inProgress x y)
    (location : Location) :
    Follows definitions inProgress (translating location x) (Attempting.translating location y) := by
  intro r hr hbooks hnames
  obtain ⟨result, after, hx, hcontinues, hy⟩ := h r hr hbooks hnames
  refine ⟨result.mapError (Attempting.atLocation location), after, ?_, hcontinues, ?_⟩
  · rw [Builder.translating, hx]
    rfl
  · rw [Attempting.translating, run_adapt, hy]

/-- A call comes to the end that it comes to inside. -/
theorem observing_apply {call : Call} {x : Building Schema} {r after : Run} {result : Except Raised Schema}
    (h : x (r.enter call) = some (result, after)) :
    observing call x r = some (result, Run.leave call result r after) := by
  rw [observing, h]
  rfl

/-- Observing a call changes nothing about the end that it comes to. -/
theorem Ends.observing {r : Run} {call : Call} {x : Building Schema} {y : Attempting Schema}
    (h : Ends definitions (r.enter call) x y) (hr : r.InOrder definitions)
    (hnames : r.names = r.books.inProgress)
    (hcall : ∀ name, call = .named name → name ∈ definitions.map Prod.fst)
    (hpart : ∀ left result, Ended.completes? ⟨call, r.callers, r.books, left, result⟩ = none) :
    Ends definitions r (observing call x) y := by
  obtain ⟨result, after, hx, hcontinues, hy⟩ := h
  exact ⟨result, _, observing_apply hx, hcontinues.leave hr hnames hcall (hpart _ _), hy⟩

theorem names_enter_build (r : Run) (location : Location) (d : Value) :
    (r.enter (.build location d)).names = r.names := by
  rw [Run.names, Run.enter, List.filterMap_append]
  exact List.append_nil _

/-- A definition inside another one is no whole definition of a name. -/
theorem Follows.observing {x : Building Schema} {y : Attempting Schema}
    (h : Follows definitions inProgress x y) {location : Location} (hlocation : location.steps ≠ [])
    (d : Value) : Follows definitions inProgress (observing (.build location d) x) y := by
  intro r hr hbooks hnames
  have hends := h (r.enter (.build location d)) (hr.enter _) hbooks ((names_enter_build ..).trans hnames)
  refine hends.observing hr (hnames.trans hbooks.symm) nofun fun left result => ?_
  cases result with
  | error e => rfl
  | ok s => exact if_neg hlocation

/-! ### Definitions -/

section

variable {reference : Lookup} {reference' : Attempting.Lookup}

theorem steps_step (location : Location) (s : Step) : (location.step s).steps ≠ [] := by
  simp [Location.step]

/-- The definition is built alike wherever it stands inside another one. -/
def FollowsInside (definitions : List (String × Value)) (inProgress : List String) (reference : Lookup)
    (reference' : Attempting.Lookup) (d : Value) : Prop :=
  ∀ location : Location, location.steps ≠ [] →
    Follows definitions inProgress (build reference location d) (Attempting.build reference' location d)

theorem follows_buildFields {entries : List (Value × Value)}
    (h : ∀ d ∈ entries.map Prod.snd, FollowsInside definitions inProgress reference reference' d)
    (inside : Location) (found : List (String × Schema)) :
    Follows definitions inProgress (buildFields reference inside found entries)
      (Attempting.buildFields reference' inside found entries) := by
  induction entries generalizing found with
  | nil =>
      rw [buildFields, Attempting.buildFields]
      exact follows_pure found
  | cons e entries ih =>
      obtain ⟨key, d⟩ := e
      rw [List.map_cons, List.forall_mem_cons] at h
      rw [buildFields, Attempting.buildFields]
      exact (follows_aside (quiet_raising _ _)).bind fun name _ =>
        (h.1 _ (steps_step inside _)).bind fun s _ => ih h.2 _

theorem follows_buildPositions {items : List Value}
    (h : ∀ d ∈ items, FollowsInside definitions inProgress reference reference' d)
    (inside : Location) (i : Nat) :
    Follows definitions inProgress (buildPositions reference inside i items)
      (Attempting.buildPositions reference' inside i items) := by
  induction items generalizing i with
  | nil =>
      rw [buildPositions, Attempting.buildPositions]
      exact follows_pure []
  | cons d items ih =>
      rw [List.forall_mem_cons] at h
      rw [buildPositions, Attempting.buildPositions]
      exact (h.1 _ (steps_step inside _)).bind fun s _ =>
        (ih h.2 _).bind fun rest _ => follows_pure (s :: rest)

theorem follows_buildBranches {entries : List (Value × Value)}
    (h : ∀ d ∈ entries.map Prod.snd, FollowsInside definitions inProgress reference reference' d)
    (inside : Location) :
    Follows definitions inProgress (buildBranches reference inside entries)
      (Attempting.buildBranches reference' inside entries) := by
  induction entries with
  | nil =>
      rw [buildBranches, Attempting.buildBranches]
      exact follows_pure []
  | cons e entries ih =>
      obtain ⟨key, d⟩ := e
      rw [List.map_cons, List.forall_mem_cons] at h
      rw [buildBranches, Attempting.buildBranches]
      exact (follows_aside (quiet_raising _ _)).bind fun tag _ =>
        (h.1 _ (steps_step inside _)).bind fun s _ =>
          (follows_aside (quiet_combining _)).bind fun branch _ =>
            (ih h.2).bind fun rest _ => follows_pure (branch :: rest)

/-- Only the name of a combinator is one. -/
theorem key_of_yields_combinator {location : Location} {key : Value} {c : Combinator} {p q : Progress}
    (h : Yields (Attempting.combinator location key) p c q) : key = .str c.name := by
  cases key with
  | str name =>
      rw [Attempting.combinator] at h
      split at h
      · rename_i c' hname
        obtain ⟨rfl, -⟩ := yields_pure.mp h
        rw [Combinator.name_of_ofName? hname]
      · exact absurd h yields_throw
  | _ =>
      obtain ⟨text, r, -, h⟩ := yields_bind.mp h
      exact absurd h yields_throw

theorem follows_fieldsOf {argument : Value}
    (h : ∀ d ∈ parts .object argument, FollowsInside definitions inProgress reference reference' d)
    (inside : Location) :
    Follows definitions inProgress (fieldsOf reference inside argument)
      (Attempting.fieldsOf reference' inside argument) := by
  cases argument with
  | map entries => exact follows_buildFields h inside []
  | _ => exact follows_throw (.own (.broken inside .fieldsNotMap))

theorem parts_partialObject (argument : Value) : parts .partialObject argument = parts .object argument := by
  cases argument <;> rfl

theorem follows_positionsOf {argument : Value}
    (h : ∀ d ∈ parts .tuple argument, FollowsInside definitions inProgress reference reference' d)
    (inside : Location) :
    Follows definitions inProgress (positionsOf reference inside argument)
      (Attempting.positionsOf reference' inside argument) := by
  cases argument with
  | list items => exact follows_buildPositions h inside 0
  | _ => exact follows_throw (.own (.broken inside .positionsNotList))

theorem follows_branchesOf {argument : Value}
    (h : ∀ d ∈ parts .variant argument, FollowsInside definitions inProgress reference reference' d)
    (inside : Location) :
    Follows definitions inProgress (branchesOf reference inside argument)
      (Attempting.branchesOf reference' inside argument) := by
  cases argument with
  | map entries => exact follows_buildBranches h inside
  | _ => exact follows_throw (.own (.broken inside .branchesNotMap))

/-- What a definition is built into, once observing it is put aside. -/
theorem follows_contents (d : Value)
    (href : ∀ location name, Mentions d name →
      Follows definitions inProgress (reference location name) (reference' location name)) :
    ∀ location, ∃ x, build reference location d = observing (.build location d) x ∧
      Follows definitions inProgress x (Attempting.build reference' location d) := by
  induction d using definition_induction with
  | text name =>
      intro location
      refine ⟨_, by rw [build], ?_⟩
      rw [Attempting.build]
      cases Scalar.ofName? name with
      | some kind => exact follows_pure (Schema.scalar kind)
      | none => exact href location name (.self name)
  | apply c argument ih =>
      intro location
      have hparts : ∀ d ∈ parts c argument, FollowsInside definitions inProgress reference reference' d := by
        intro d hd location hlocation
        obtain ⟨x, hx, hfollows⟩ := ih d hd (fun l n hmention => href l n (.part hd hmention)) location
        exact hx ▸ hfollows.observing hlocation d
      refine ⟨_, by rw [combined, build], ?_⟩
      rw [combined, Attempting.build]
      refine (follows_aside (quiet_combinator _ _)).bind fun c' hc' => ?_
      obtain ⟨p, q, hyields⟩ := hc'
      obtain rfl : c' = c := by
        have hname := Value.str.inj (key_of_yields_combinator hyields)
        have hc := Combinator.ofName?_name c
        rw [hname, Combinator.ofName?_name] at hc
        exact Option.some.inj hc
      refine Follows.translating ?_ location
      cases c' with
      | optional | nullable | array =>
          exact (hparts argument List.mem_cons_self _ (steps_step location _)).bind fun s _ =>
            follows_aside (quiet_one _ _ s)
      | object =>
          exact (follows_fieldsOf hparts _).bind fun fields _ => follows_aside (quiet_keyed _ _ fields)
      | partialObject =>
          rw [parts_partialObject] at hparts
          exact (follows_fieldsOf hparts _).bind fun fields _ => follows_aside (quiet_keyed _ _ fields)
      | tuple =>
          exact (follows_positionsOf hparts _).bind fun positions _ =>
            follows_aside (quiet_indexed positions)
      | oneOf => exact follows_aside (quiet_enumerated _ argument)
      | variant =>
          exact (follows_branchesOf hparts _).bind fun branches _ => follows_aside (quiet_tagged branches)
  | other d htext hcombined =>
      intro location
      have hnot (d : Value) : Follows definitions inProgress
          (aside do
            throw (.own (.broken location (.notDefinition (← Attempting.raising .value d.written?)))))
          (do throw (.own (.broken location (.notDefinition (← Attempting.raising .value d.written?)))) :
            Attempting Schema) :=
        follows_aside ((quiet_raising _ _).bind fun _ => quiet_throw _)
      cases d with
      | str name => exact absurd rfl (htext name)
      | map entries =>
          rcases entries with _ | ⟨⟨key, argument⟩, _ | ⟨e, entries⟩⟩
          · exact ⟨_, rfl, hnot _⟩
          · refine ⟨_, by rw [build], ?_⟩
            rw [Attempting.build]
            refine (follows_aside (quiet_combinator _ _)).bind fun c hc => ?_
            obtain ⟨p, q, hyields⟩ := hc
            exact absurd (congrArg (fun key => Value.map [(key, argument)]) (key_of_yields_combinator hyields))
              (hcombined c argument)
          · exact ⟨_, rfl, hnot _⟩
      | _ => exact ⟨_, rfl, hnot _⟩

end

/-! ### Names -/

/-- Building the whole definition of a name without books. -/
def attemptFresh (reference : Attempting.Lookup) (name : String) (d : Value) : Attempting Schema := do
  let s ← Attempting.build reference ⟨name, []⟩ d
  modify fun progress => { progress with built := progress.built ++ [(name, s)] }
  return s

/-- The whole definition of a name that was begun is built alike, and the name is done after that. -/
theorem ends_fresh {reference : Lookup} {reference' : Attempting.Lookup} {r : Run} {d : Value}
    (hlookup : definitions.lookup name = some d) (hr : (r.begin name).InOrder definitions)
    (hnames : (r.begin name).names = (r.begin name).books.inProgress)
    (href : ∀ location other, Mentions d other → Follows definitions (r.books.inProgress ++ [name])
      (reference location other) (reference' location other)) :
    Ends definitions r (fresh definitions reference name) (attemptFresh reference' name d) := by
  obtain ⟨x, hx, hfollows⟩ := follows_contents d href ⟨name, []⟩
  obtain ⟨result, after, hrun, hcontinues, hy⟩ :=
    hfollows ((r.begin name).enter _) (hr.enter _) rfl ((names_enter_build ..).trans hnames)
  refine ⟨result, _, fresh_apply hlookup (hx ▸ observing_apply hrun), hcontinues.close hr hnames, ?_⟩
  have hy' : (Attempting.build reference' ⟨name, []⟩ d).run.run r.progress = (result, after.progress) := hy
  rw [attemptFresh, run_bind, hy']
  cases result with
  | error e => rfl
  | ok s =>
      have hundone : name ∉ after.books.built.map Prod.fst := by
        refine hcontinues.inOrder.books.undone name ?_
        rw [hcontinues.inProgress]
        exact List.mem_append_right _ List.mem_cons_self
      change (_, _) = (_, Progress.mk (Named.put name s after.books.built) _)
      rw [Named.put_of_not_mem hundone]
      rfl

theorem Ends.get_bind {r : Run} {f : Run → Building β} {g : Progress → Attempting β}
    (h : Ends definitions r (f r) (g r.progress)) : Ends definitions r (get >>= f) (get >>= g) := h

/-- A name is done or in progress, or else its whole definition is built, for which there are steps. -/
theorem ends_consulting {x : Building Schema} {more : Nat} {r : Run} (hr : r.InOrder definitions)
    (hnames : r.names = r.books.inProgress) (hname : name ∈ definitions.map Prod.fst)
    (hfresh : name ∉ r.books.inProgress → name ∉ r.books.built.map Prod.fst →
      ∃ k d, more = k + 1 ∧ definitions.lookup name = some d ∧
        Ends definitions (r.enter (.named name)) x (attemptFresh (Attempting.defined definitions
          (Attempting.named definitions k (r.books.inProgress ++ [name]))) name d)) :
    Ends definitions r (consulting name x)
      (Attempting.named definitions more r.books.inProgress name) := by
  unfold consulting Attempting.named
  refine Ends.observing ?_ hr hnames (by rintro _ ⟨⟩; exact hname) fun left result => by cases result <;> rfl
  have hentered : (r.enter (.named name)).InOrder definitions := hr.enter _
  apply Ends.get_bind
  dsimp only [Run.progress, Run.enter]
  cases hlookup : r.books.built.lookup name with
  | some s => exact ⟨_, _, rfl, .refl hentered, rfl⟩
  | none =>
      change Ends definitions _ (if name ∈ r.books.inProgress then _ else _)
        (if name ∈ r.books.inProgress then _ else _)
      by_cases hmem : name ∈ r.books.inProgress
      · rw [if_pos hmem, if_pos hmem]
        exact ⟨_, _, rfl, .refl hentered, rfl⟩
      · have hundone : name ∉ r.books.built.map Prod.fst := by
          rw [← Named.isSome_lookup, hlookup]
          exact Bool.false_ne_true
        obtain ⟨k, d, rfl, hd, hends⟩ := hfresh hmem hundone
        rw [if_neg hmem, if_neg hmem]
        simp only [hd]
        exact hends

theorem names_enter_named (r : Run) (name : String) : (r.enter (.named name)).names = r.names ++ [name] := by
  rw [Run.names, Run.enter, List.filterMap_append]
  rfl

/-- Along a trail, and with no fewer steps left than names that are not in progress, names are built alike. -/
theorem follows_named {steps more : Nat} (htrail : Trail definitions inProgress name)
    (hname : name ∈ definitions.map Prod.fst) (hsteps : definitions.length ≤ steps + inProgress.length)
    (hmore : definitions.length ≤ more + inProgress.length) :
    Follows definitions inProgress (named definitions steps name)
      (Attempting.named definitions more inProgress name) := by
  induction steps generalizing more inProgress name with
  | zero =>
      rintro r hr rfl hnames
      refine ends_consulting hr hnames hname fun hnew _ => ?_
      have hroom := length_lt_of_subset htrail.nodup (subset_of_chain htrail.chain) hname hnew
      omega
  | succ steps ih =>
      rintro r hr rfl hnames
      refine ends_consulting hr hnames hname fun hnew hundone => ?_
      have hroom := length_lt_of_subset htrail.nodup (subset_of_chain htrail.chain) hname hnew
      obtain ⟨more, rfl⟩ : ∃ k, more = k + 1 := Nat.exists_eq_add_one.mpr (by omega)
      obtain ⟨d, hd⟩ := Named.exists_lookup hname
      refine ⟨more, d, rfl, hd, ends_fresh hd ((hr.enter _).begin htrail hname hnew hundone)
        ((names_enter_named r name).trans (congrArg (· ++ [name]) hnames)) fun location other hmention => ?_⟩
      rw [defined, Attempting.defined]
      by_cases hother : other ∈ definitions.map Prod.fst
      · rw [if_pos hother, if_pos hother]
        have hlength : (r.books.inProgress ++ [name]).length = r.books.inProgress.length + 1 :=
          List.length_append
        exact ih (htrail.extend hnew ⟨d, hd, hmention⟩) hother (hlength ▸ by omega) (hlength ▸ by omega)
      · rw [if_neg hother, if_neg hother]
        exact follows_throw _

theorem follows_allNamed {steps : Nat} (hsteps : definitions.length ≤ steps) {names : List String}
    (hnames : names ⊆ definitions.map Prod.fst) :
    Follows definitions [] (allNamed definitions steps names) (Attempting.allNamed definitions names) := by
  induction names with
  | nil => exact follows_pure []
  | cons name names ih =>
      obtain ⟨hname, hnames⟩ := List.cons_subset.mp hnames
      exact (follows_named (trail_nil definitions name) hname hsteps (Nat.le_add_right _ _)).bind fun s _ =>
        (ih hnames).bind fun rest _ => follows_pure ((name, s) :: rest)

/-! ### Documents -/

/-- A call is made inside of fewer calls for names than there are names, unless it meets a name again. -/
theorem Ended.Fair.length_within {e : Ended} (h : e.Fair definitions) :
    e.within.length ≤ definitions.length ∧
      ∀ name, e.call = .named name → name ∉ e.within → e.within.length < definitions.length := by
  rw [h.within]
  refine ⟨?_, fun name hcall hnew => ?_⟩
  · have hlength := (h.inOrder.nodup.subperm h.inOrder.defined).length_le
    rwa [List.length_map] at hlength
  · exact length_lt_of_subset h.inOrder.nodup h.inOrder.defined (h.defined name hcall) hnew

/-- Building all names of a document comes to an end, with the schemas or the error that loading has. There are
enough steps if there are as many as names. At all moments the names in progress are different names of the
document that are not done, and the definition of each mentions the next one. Every call, whether it gives a
schema or raises, leaves the names in progress as it found them, and adds to what is done. These names are those
of the calls that it was made inside of, so calls for names stand inside of one another no deeper than there are
names, and only one that meets a name again stands that deep. No definition is built to the end twice. -/
theorem exists_run_in_order (definitions : List (String × Value)) :
    ∃ result run,
      (∀ steps, definitions.length ≤ steps → buildAll definitions steps = some (result, run)) ∧
      (∀ b ∈ run.history, b.inProgress.Nodup ∧
        (∀ name ∈ b.inProgress, name ∈ definitions.map Prod.fst ∧ name ∉ b.built.map Prod.fst) ∧
        b.inProgress.IsChain (Refers definitions)) ∧
      (∀ e ∈ run.ended, e.left.inProgress = e.found.inProgress ∧ e.found.built <+: e.left.built ∧
        e.within = e.found.inProgress ∧ e.within.length ≤ definitions.length ∧
        ∀ name, e.call = .named name → name ∉ e.within → e.within.length < definitions.length) ∧
      (run.ended.filterMap Ended.completes?).Nodup ∧ run.callers = [] ∧
      result = ((resolveAll definitions (definitions.map Prod.fst)).run.run ⟨[], []⟩).1.mapError
        Raised.ofLoadFault ∧
      run.progress = ((resolveAll definitions (definitions.map Prod.fst)).run.run ⟨[], []⟩).2 := by
  obtain ⟨result, run, hrun, hcontinues, hattempt⟩ :=
    follows_allNamed (Nat.le_refl definitions.length) (List.Subset.refl (definitions.map Prod.fst))
      Run.start .start rfl rfl
  have hagrees := (Attempting.agrees_allNamed (List.Subset.refl (definitions.map Prod.fst)) ⟨[], []⟩
    (List.forall_mem_nil _)).1
  obtain ⟨hresult, hprogress⟩ := Prod.mk.inj (hattempt.symm.trans hagrees)
  refine ⟨result, run, fun steps hsteps => refines_allNamed hsteps _ _ _ hrun, fun b hb => ?_, fun e he => ?_,
    ?_, hcontinues.callers, hresult, hprogress⟩
  · have horder := hcontinues.inOrder.history b hb
    exact ⟨horder.nodup, fun name hname => ⟨horder.defined hname, horder.undone name hname⟩, horder.chain⟩
  · have hfair := hcontinues.inOrder.ended e he
    exact ⟨hfair.restored, hfair.extended, hfair.within, hfair.length_within⟩
  · rw [hcontinues.inOrder.completed]
    exact hcontinues.inOrder.kept

/-- Both names of a cycle are struck out again, the second one first. -/
example : (buildAll [("a", .str "b"), ("b", combined .array (.str "a"))] 2).map
    (fun step => step.2.history.map Books.inProgress) =
    some [[], ["a"], ["a", "b"], ["a"], []] := by decide +kernel

end Wireform.Registry.Builder
