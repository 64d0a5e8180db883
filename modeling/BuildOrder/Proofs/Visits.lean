import BuildOrder.Proofs.Calls

/-!
# The order in which packages are visited

The search has the packages whose imports are still to be looked at in a queue. A package that is
added joins the queue as it joins the order.

* `Resolver.Run.visits`: **the packages are visited in the order that the search comes to.**
* `Resolver.ScanStep`, `Resolver.scanFrom`: the order is read by index while it grows, and there is
  no queue.
* `Resolver.step_search_iff`: **the queue is what the index has not come to**, at each step.
* `Resolver.run_eq_scanFrom`: so both come to the same, and leave the same trace.
* `Resolver.resolve_visits`: all of this for the search from its start.
-/

namespace BuildOrder

/-- What is traced leaves its trace, and then its value is gone on with. -/
theorem Traced.bind_eq {α β : Type} {x : Traced α} {a : α} {f : α → Traced β} (h : x.value = a) :
    x >>= f = (⟨(), x.events⟩ : Traced Unit) >>= fun _ => f a := by
  subst h
  rfl

/-! ### Packages that come last -/

/-- The packages `found` came last. They have the next numbers, and come last in the order. -/
structure Application.Grown (app later : Application) (found : List Package) : Prop where
  packages : later.packages = app.packages ++ found
  order : later.order = app.order ++ List.range' app.packages.length found.length

namespace Application.Grown

variable {app later last : Application} {found more : List Package}

theorem refl (app : Application) : app.Grown app [] :=
  ⟨(List.append_nil _).symm, (List.append_nil _).symm⟩

/-- The numbers of packages that came one after the other. -/
theorem range'_append (h : app.Grown later found) :
    List.range' app.packages.length (found ++ more).length =
      List.range' app.packages.length found.length ++
        List.range' later.packages.length more.length := by
  rw [h.packages, List.length_append, List.length_append, List.range'_append_1]

theorem trans (h : app.Grown later found) (hmore : later.Grown last more) :
    app.Grown last (found ++ more) := by
  refine ⟨?_, ?_⟩
  · rw [hmore.packages, h.packages, List.append_assoc]
  · rw [hmore.order, h.order, h.range'_append, List.append_assoc]

/-- If each package was once in the order, each is once in it then. -/
theorem perm_order (h : app.Grown later found)
    (horder : app.order.Perm (List.range app.packages.length)) :
    later.order.Perm (List.range later.packages.length) := by
  have hrange : List.range later.packages.length =
      List.range app.packages.length ++ List.range' app.packages.length found.length := by
    rw [h.packages, List.length_append, List.range_eq_range', List.range_eq_range',
      ← List.range'_append_1, Nat.zero_add]
  rw [h.order, hrange]
  exact horder.append_right _

end Application.Grown

namespace Resolver

variable {s : Resolver} {answer : Resolution × Except BuildError Unit}

/-! ### Visits -/

section Visits

variable {x y : Search} {moments : List (Moment Search)}

/-- The package that is visited at a moment. -/
def Moment.visit? (m : Moment Search) : Option PackageId :=
  match m.state.pending with
  | [] => m.state.queue.head?
  | _ :: _ => none

/-- A step visits the first of the queue or looks at an import. What it adds comes last in the
queue. -/
theorem Step.visits (h : s.Step x y) : ∃ found, x.reached.app.Grown y.reached.app found ∧
    x.queue ++ List.range' x.reached.app.packages.length found.length =
      (Moment.visit? ⟨s, x⟩).toList ++ y.queue := by
  cases h with
  | next r id queue => exact ⟨[], Application.Grown.refl r.app, List.append_nil _⟩
  | skip _ => exact ⟨[], Application.Grown.refl _, List.append_nil _⟩
  | illegal _ _ _ => exact ⟨[], Application.Grown.refl _, List.append_nil _⟩
  | missing _ _ => exact ⟨[], Application.Grown.refl _, List.append_nil _⟩
  | found _ _ _ => exact ⟨[_], ⟨rfl, rfl⟩, rfl⟩

/-- **A search that goes well visits the queue it begins with, and then what it adds.** -/
theorem Run.visits (h : Run Step Ends x moments answer) (hok : answer.2 = .ok ()) :
    ∃ found, x.reached.app.Grown answer.1.app found ∧ moments.filterMap Moment.visit? =
      x.queue ++ List.range' x.reached.app.packages.length found.length := by
  rw [List.filterMap_eq_flatMap_toList]
  induction h with
  | last hends =>
    cases hends with
    | all r => exact ⟨[], Application.Grown.refl r.app, rfl⟩
    | excluded _ _ _ => cases hok
  | cons hstep _ ih =>
    obtain ⟨more, hmore, hrest⟩ := ih hok
    obtain ⟨found, hfound, hqueue⟩ := hstep.visits
    -- what this step adds stands in the queue before what the rest of the run adds
    refine ⟨found ++ more, hfound.trans hmore, ?_⟩
    rw [List.flatMap_cons, hrest, hfound.range'_append, ← List.append_assoc, ← List.append_assoc,
      hqueue]

end Visits

/-! ### What looking at one import adds -/

section Look

variable {r next : Resolution} {queue : List PackageId} {path : Bytes} {pending : List Bytes}
  {y : Search}

/-- The steps that look at an import. -/
theorem step_look_iff : s.Step ⟨r, queue, path :: pending⟩ y ↔
    ∃ next, (s.lookAt r path).value = (next, .ok ()) ∧
      y = ⟨next, queue ++ next.app.order.drop r.app.order.length, pending⟩ := by
  constructor
  · have hsame : queue ++ r.app.order.drop r.app.order.length = queue := by simp
    intro h
    cases h with
    | skip hpath => exact ⟨r, lookAt_skip hpath, by rw [hsame]⟩
    | illegal hunsettled hstd hcheck =>
      exact ⟨_, lookAt_illegal hunsettled hstd hcheck, congrArg (Search.mk _ · _) hsame.symm⟩
    | missing hasks hloc =>
      exact ⟨_, lookAt_missing hasks hloc, congrArg (Search.mk _ · _) hsame.symm⟩
    | found hasks hloc hkept =>
      refine ⟨_, lookAt_found hasks hloc hkept, ?_⟩
      rw [order_added, List.drop_left]
  · rintro ⟨next, hnext, rfl⟩
    rcases s.lookAt_cases r path queue pending with ⟨other, hother, hstep⟩ | ⟨_, _, hother, -⟩
    · obtain rfl : next = other := (Prod.mk.inj (hnext.symm.trans hother)).1
      exact hstep
    · cases (Prod.mk.inj (hnext.symm.trans hother)).2

/-- The searches that end when they look at an import. -/
theorem ends_look_iff : s.Ends ⟨r, queue, path :: pending⟩ answer ↔
    ∃ next e, (s.lookAt r path).value = (next, .error e) ∧ answer = (next, .error e) := by
  constructor
  · intro h
    cases h with
    | excluded hasks hloc hkept => exact ⟨_, _, lookAt_excluded hasks hloc hkept, rfl⟩
  · rintro ⟨next, e, hnext, rfl⟩
    rcases s.lookAt_cases r path queue pending with ⟨_, hother, -⟩ | ⟨other, e', hother, hends⟩
    · cases (Prod.mk.inj (hnext.symm.trans hother)).2
    · rw [← hnext, hother]
      exact hends

/-- What is added when an import is looked at comes last in the order. -/
theorem exists_order_of_lookAt (h : (s.lookAt r path).value = (next, .ok ())) :
    ∃ more, next.app.order = r.app.order ++ more := by
  have hstep : s.Step ⟨r, [], [path]⟩ _ := step_look_iff.2 ⟨next, h, rfl⟩
  obtain ⟨found, hgrown, -⟩ := hstep.visits
  exact ⟨_, hgrown.order⟩

theorem length_order_lookAt (h : (s.lookAt r path).value = (next, .ok ())) :
    r.app.order.length ≤ next.app.order.length := by
  obtain ⟨more, hmore⟩ := exists_order_of_lookAt h
  rw [hmore, List.length_append]
  exact Nat.le_add_right _ _

/-- What is added joins a queue as it joins the order. -/
theorem drop_lookAt (h : (s.lookAt r path).value = (next, .ok ())) {index : Nat}
    (hindex : index ≤ r.app.order.length) :
    r.app.order.drop index ++ next.app.order.drop r.app.order.length =
      next.app.order.drop index := by
  obtain ⟨more, hmore⟩ := exists_order_of_lookAt h
  rw [hmore, List.drop_left, List.drop_append_of_le_length hindex]

theorem Step.app_eq_or_lt {x : Search} (h : s.Step x y) : y.reached.app = x.reached.app ∨
    y.reached.app.unseen < x.reached.app.unseen := by
  cases h with
  | next r id queue => exact Or.inl rfl
  | skip _ => exact Or.inl rfl
  | illegal _ _ _ => exact Or.inl rfl
  | missing _ _ => exact Or.inl rfl
  | found hasks _ _ => exact Or.inr hasks.unseen_lt

/-- An import that is looked at leaves the application as it is, or one legal path less to be
found. -/
theorem lookAt_app (h : (s.lookAt r path).value = (next, .ok ())) :
    next.app = r.app ∨ next.app.unseen < r.app.unseen := by
  have hstep : s.Step ⟨r, [], [path]⟩ _ := step_look_iff.2 ⟨next, h, rfl⟩
  exact hstep.app_eq_or_lt

end Look

/-! ### The order read by index -/

/-- A state of a scan: what it has come to, the place in the order that is next, and the imports
that are being looked at. -/
structure Scan where
  reached : Resolution
  index : Nat
  pending : List Bytes

/-- One step of a scan, which takes up the next package of the order or looks at the next import. -/
inductive ScanStep (s : Resolver) : Scan → Scan → Prop
  | take {r : Resolution} {index : Nat} {id : PackageId} : r.app.order[index]? = some id →
      ScanStep s ⟨r, index, []⟩ ⟨r, index + 1, r.app.importsOf id⟩
  | look {r next : Resolution} {index : Nat} {path : Bytes} {pending : List Bytes} :
      (s.lookAt r path).value = (next, .ok ()) →
      ScanStep s ⟨r, index, path :: pending⟩ ⟨next, index, pending⟩

/-- How a scan ends: the order is read to its end, or looking at an import fails. -/
inductive ScanEnds (s : Resolver) : Scan → Resolution × Except BuildError Unit → Prop
  | all {r : Resolution} {index : Nat} : r.app.order[index]? = none →
      ScanEnds s ⟨r, index, []⟩ (r, .ok ())
  | failed {r next : Resolution} {index : Nat} {path : Bytes} {pending : List Bytes}
      {e : BuildError} : (s.lookAt r path).value = (next, .error e) →
      ScanEnds s ⟨r, index, path :: pending⟩ (next, .error e)

/-- The scan from a state on. -/
def scanFrom (s : Resolver) (r : Resolution) (index : Nat) (pending : List Bytes) :
    Traced (Resolution × Except BuildError Unit) :=
  match pending with
  | [] =>
    match _hid : r.app.order[index]? with
    | none => return (r, .ok ())
    | some id => scanFrom s r (index + 1) (r.app.importsOf id)
  | path :: pending => do
    let looked := s.lookAt r path
    ⟨(), looked.events⟩
    match _hlooked : looked.value with
    | (next, .error e) => return (next, .error e)
    | (next, .ok ()) => scanFrom s next index pending
termination_by (r.app.unseen, r.app.order.length - index, pending.length)
decreasing_by
  · have hlt := (List.getElem?_eq_some_iff.1 _hid).1
    exact Prod.Lex.right _ (Prod.Lex.left _ _ (by omega))
  · rcases lookAt_app _hlooked with happ | hlt
    · rw [happ]
      exact Prod.Lex.right _ (Prod.Lex.right _ (Nat.lt_succ_self _))
    · exact Prod.Lex.left _ _ hlt

/-- Finds the external packages of an application by a scan of its order. -/
def scan (s : Resolver) (app : Application) : Traced (Resolution × Except BuildError Unit) :=
  s.scanFrom { app } 0 []

namespace Scan

/-- The search at the same point. **Its queue is what the index has not come to.** -/
def search (x : Scan) : Search := ⟨x.reached, x.reached.app.order.drop x.index, x.pending⟩

/-- The index is not past the end of the order. -/
def InBounds (x : Scan) : Prop := x.index ≤ x.reached.app.order.length

end Scan

section Scan

variable {x y : Scan} {z : Search}

theorem ScanStep.inBounds (h : s.ScanStep x y) (hx : x.InBounds) : y.InBounds := by
  cases h with
  | take hid => exact (List.getElem?_eq_some_iff.1 hid).1
  | look hlook => exact Nat.le_trans hx (length_order_lookAt hlook)

/-- A step of the scan is one of the search. -/
theorem ScanStep.search (h : s.ScanStep x y) (hx : x.InBounds) : s.Step x.search y.search := by
  cases h with
  | @take r index id hid =>
    obtain ⟨hlt, rfl⟩ := List.getElem?_eq_some_iff.1 hid
    rw [Scan.search, List.drop_eq_getElem_cons hlt]
    exact Step.next _ _ _
  | look hlook => exact step_look_iff.2 ⟨_, hlook, by rw [drop_lookAt hlook hx]; rfl⟩

/-- **Search and scan go in step.** -/
theorem step_search_iff (hx : x.InBounds) :
    s.Step x.search z ↔ ∃ y, s.ScanStep x y ∧ y.search = z := by
  constructor
  · intro h
    obtain ⟨r, index, pending⟩ := x
    cases pending with
    | nil =>
      cases hid : r.app.order[index]? with
      | none =>
        rw [Scan.search, List.drop_eq_nil_of_le (List.getElem?_eq_none_iff.1 hid)] at h
        cases h
      | some id =>
        refine ⟨_, ScanStep.take hid, ?_⟩
        obtain ⟨hlt, rfl⟩ := List.getElem?_eq_some_iff.1 hid
        rw [Scan.search, List.drop_eq_getElem_cons hlt] at h
        cases h
        rfl
    | cons path pending =>
      obtain ⟨next, hlook, rfl⟩ := step_look_iff.1 h
      exact ⟨_, ScanStep.look hlook, by rw [drop_lookAt hlook hx]; rfl⟩
  · rintro ⟨y, hstep, rfl⟩
    exact hstep.search hx

theorem ends_search_iff : s.Ends x.search answer ↔ s.ScanEnds x answer := by
  obtain ⟨r, index, pending⟩ := x
  cases pending with
  | nil =>
    constructor
    · generalize hz : Scan.search ⟨r, index, []⟩ = z
      intro h
      cases h with
      | all _ =>
        obtain ⟨rfl, hqueue, -⟩ := Search.mk.inj hz
        exact ScanEnds.all (List.getElem?_eq_none_iff.2 (List.drop_eq_nil_iff.1 hqueue))
      | excluded _ _ _ => cases (Search.mk.inj hz).2.2
    · intro h
      cases h with
      | all hend =>
        rw [Scan.search, List.drop_eq_nil_of_le (List.getElem?_eq_none_iff.1 hend)]
        exact Ends.all r
  | cons path pending =>
    refine ends_look_iff.trans ⟨?_, ?_⟩
    · rintro ⟨next, e, hlook, rfl⟩
      exact ScanEnds.failed hlook
    · intro h
      cases h with
      | failed hlook => exact ⟨_, _, hlook, rfl⟩

/-- The moment of the search at the same point. -/
def Moment.search (m : Moment Scan) : Moment Search := ⟨m.oracles, m.state.search⟩

/-- **Search and scan go through the same moments**, whatever the oracles answer then. -/
theorem run_search_iff {moments : List (Moment Search)} (hx : x.InBounds) :
    Run Step Ends x.search moments answer ↔
      ∃ scanned, Run ScanStep ScanEnds x scanned answer ∧ scanned.map Moment.search = moments := by
  constructor
  · -- the induction is on the run of the search, and needs its state as a variable
    generalize hz : x.search = z
    intro h
    induction h generalizing x with
    | @last s _ _ hends =>
      subst hz
      exact ⟨[⟨s, x⟩], Run.last (ends_search_iff.1 hends), rfl⟩
    | @cons s _ _ _ _ hstep _ ih =>
      subst hz
      obtain ⟨y, hscan, hy⟩ := (step_search_iff hx).1 hstep
      obtain ⟨scanned, hrun, hmoments⟩ := ih (hscan.inBounds hx) hy
      exact ⟨⟨s, x⟩ :: scanned, Run.cons hscan hrun, by rw [List.map_cons, hmoments]; rfl⟩
  · rintro ⟨scanned, h, rfl⟩
    induction h with
    | last hends => exact Run.last (ends_search_iff.2 hends)
    | cons hscan _ ih => exact Run.cons (hscan.search hx) (ih (hscan.inBounds hx))

end Scan

/-- **The search is the scan**, trace included: its queue is what the index has not come to. -/
theorem run_eq_scanFrom (r : Resolution) (index : Nat) (pending : List Bytes)
    (hindex : index ≤ r.app.order.length) :
    s.run r (r.app.order.drop index) pending = s.scanFrom r index pending := by
  induction r, index, pending using scanFrom.induct s with
  | case1 r index hend =>
    rw [List.drop_eq_nil_of_le (List.getElem?_eq_none_iff.1 hend), run, scanFrom]
    split
    · rfl
    · rename_i hid
      cases hend.symm.trans hid
  | case2 r index id hid ih =>
    obtain ⟨hlt, hget⟩ := List.getElem?_eq_some_iff.1 hid
    rw [List.drop_eq_getElem_cons hlt, hget, run, ih hlt, scanFrom]
    split
    · rename_i hend
      cases hend.symm.trans hid
    · rename_i hother
      obtain rfl := Option.some.inj (hid.symm.trans hother)
      rfl
  | case3 r index path pending looked ih =>
    rw [run_cons, scanFrom]
    split
    · rename_i hlooked
      rw [Traced.bind_eq hlooked]
      rfl
    · rename_i next hlooked
      -- what is added joins the queue as it joins the order, past the index
      have hnext := Nat.le_trans hindex (length_order_lookAt hlooked)
      rw [Traced.bind_eq hlooked, goOn, drop_lookAt hlooked hindex, ih next hlooked hnext]

/-- **A search that goes well visits the packages in the order that it comes to**, from the left to
the right. The order begins with the packages that were there before, and what is added has the next
numbers; if each package was once in the order, each is visited once. A search and a scan of the
growing order by index go through the same moments, whatever the oracles answer from moment to
moment, and the search as it is run is the scan as it is run, trace included. -/
theorem resolve_visits (s : Resolver) (app : Application) :
    (∀ unresolved moments answer, Runs app unresolved moments answer → answer.2 = .ok () →
      moments.filterMap Moment.visit? = answer.1.app.order ∧
      (∃ found, app.Grown answer.1.app found) ∧
      (app.order.Perm (List.range app.packages.length) →
        (moments.filterMap Moment.visit?).Perm (List.range answer.1.app.packages.length))) ∧
    (∀ unresolved moments answer, Runs app unresolved moments answer ↔
      ∃ scanned, Run ScanStep ScanEnds ⟨{ app, unresolved }, 0, []⟩ scanned answer ∧
        scanned.map Moment.search = moments) ∧
    (∃ moments, Runs app [] moments (s.resolve app).value ∧ ∀ m ∈ moments, m.oracles = s) ∧
    s.resolve app = s.scan app := by
  refine ⟨fun unresolved moments answer hrun hok => ?_, fun unresolved moments answer => ?_,
    s.exists_run app, ?_⟩
  · obtain ⟨found, hgrown, hvisits⟩ := hrun.visits hok
    have hvisits := hvisits.trans hgrown.order.symm
    exact ⟨hvisits, ⟨found, hgrown⟩, fun horder => hvisits ▸ hgrown.perm_order horder⟩
  · have hstart : Scan.InBounds ⟨{ app, unresolved }, 0, []⟩ := Nat.zero_le _
    exact run_search_iff hstart
  · exact run_eq_scanFrom { app } 0 [] (Nat.zero_le _)

end Resolver

end BuildOrder
