import PackageIndex.Advice.Memo
import PackageIndex.Proofs.Package.Slots

/-!
# What a package keeps about its slots is never out of date

Packages that are asked, that are copied with what they keep and to which ebuilds are added give the
answers of packages that keep nothing. A query is judged once, by what it answers as long as what is
kept is fresh (`Yields`), and from this follows what a request does (`agrees_serve`) and what all
requests do (`agrees_serveAll`).
-/

namespace PackageIndex

/-! ## Queries -/

namespace MemoPackage

/-- What is kept is what would be worked out now. -/
structure Fresh (m : MemoPackage) : Prop where
  groups : ∀ gs, m.groups? = some gs → gs = m.package.slotGroups
  subslot : ∀ sub, m.subslot? = some sub → sub = m.package.commonSubslot

theorem fresh_add (m : MemoPackage) (e : Ebuild) : (m.add e).Fresh :=
  ⟨nofun, nofun⟩

/-- Of a package that keeps nothing but what is fresh the query gives the answer. The package is
left as it is, and what is kept then is fresh again. -/
def Yields {α : Type} (p : Package) (q : StateM MemoPackage α) (a : α) : Prop :=
  ∀ m, m.Fresh → m.package = p → (q m).1 = a ∧ (q m).2.package = p ∧ (q m).2.Fresh

section

variable {α β : Type} {p : Package} {q : StateM MemoPackage α} {a : α}

theorem Yields.pure (p : Package) (a : α) : Yields p (Pure.pure a) a :=
  fun _ hm hp => ⟨rfl, hp, hm⟩

theorem Yields.bind {k : α → StateM MemoPackage β} {b : β} (hq : Yields p q a)
    (hk : Yields p (k a) b) : Yields p (q >>= k) b := by
  intro m hm hp
  obtain ⟨hanswer, hpackage, hfresh⟩ := hq m hm hp
  have hnext := hk (q m).2 hfresh hpackage
  rw [← hanswer] at hnext
  exact hnext

end

theorem yields_current (p : Package) : Yields p current p :=
  fun _ hm hp => ⟨hp, hp, hm⟩

theorem yields_slotGroups (p : Package) : Yields p slotGroups p.slotGroups := by
  rintro m hm rfl
  unfold slotGroups
  cases hkept : m.groups? with
  | some gs => exact ⟨hm.groups gs hkept, rfl, hm⟩
  | none => exact ⟨rfl, rfl, fun gs hgs => (Option.some.inj hgs).symm, hm.subslot⟩

theorem yields_commonSubslot (p : Package) : Yields p commonSubslot p.commonSubslot := by
  rintro m hm rfl
  unfold commonSubslot
  cases hkept : m.subslot? with
  | some sub => exact ⟨hm.subslot sub hkept, rfl, hm⟩
  | none => exact ⟨rfl, rfl, hm.groups, fun sub hsub => (Option.some.inj hsub).symm⟩

theorem yields_hasSlots (p : Package) : Yields p hasSlots p.hasSlots :=
  (yields_slotGroups p).bind (.pure p _)

theorem yields_bestIn (p : Package) (slot : String) (unstable : Bool) :
    Yields p (bestIn slot unstable) (p.bestIn slot unstable) := by
  rw [Package.bestIn, Package.bestPlaceIn, Package.placesIn?_eq_placesOf?]
  exact (yields_slotGroups p).bind ((yields_current p).bind (.pure p _))

theorem yields_bestOfSlots (p : Package) (unstable : Bool) :
    Yields p (bestOfSlots unstable) (p.bestOfSlots unstable) :=
  (yields_slotGroups p).bind ((yields_current p).bind (.pure p _))

theorem yields_onlySlot? (p : Package) : Yields p onlySlot? p.onlySlot? := by
  refine (yields_slotGroups p).bind ?_
  unfold Package.onlySlot?
  rcases p.slotGroups with _ | ⟨g, _ | ⟨o, gs⟩⟩
  · exact .pure p none
  · exact (yields_commonSubslot p).bind (.pure p _)
  · exact .pure p none

theorem resolveSlot?_of_unknown {source : Option InstalledSource} {i : Installed}
    (h : i.slot = none) (p : Package) :
    p.resolveSlot? source i = (slotFromSource? p source i).or p.onlySlot? := by
  unfold Package.resolveSlot? slotFromSource?
  rw [h]
  cases source with
  | none => rfl
  | some source =>
    cases hrecorded : source.recordedSlot? p i.version with
    | some slot => simp [hrecorded]
    | none => cases p.slotOfVersion i.version <;> simp [hrecorded]

theorem yields_resolveSlot? (p : Package) (source : Option InstalledSource) (i : Installed) :
    Yields p (resolveSlot? source i) (p.resolveSlot? source i) := by
  unfold resolveSlot?
  cases hslot : i.slot with
  | some slot =>
    rw [Package.resolveSlot?_of_slot hslot]
    exact .pure p (some slot)
  | none =>
    rw [resolveSlot?_of_unknown hslot p]
    refine (yields_current p).bind ?_
    cases slotFromSource? p source i with
    | some slot => exact .pure p (some slot)
    | none => exact yields_onlySlot? p

theorem yields_guessSlot (p : Package) (source : Option InstalledSource) (forced : Option String)
    (i : Installed) : Yields p (guessSlot source forced i) (p.guessSlot source forced i) := by
  refine (yields_resolveSlot? p source i).bind ?_
  unfold Package.guessSlot
  cases p.resolveSlot? source i with
  | some slot => exact .pure p _
  | none =>
    cases forced with
    | some fullSlot => exact .pure p _
    | none => exact .pure p _

end MemoPackage

/-- A query about the slots of a package. -/
inductive SlotQuery where
  | slotGroups
  | hasSlots
  | commonSubslot
  | bestIn (slot : String) (unstable : Bool)
  | bestOfSlots (unstable : Bool)
  | guessSlot (source : Option InstalledSource) (forced : Option String) (i : Installed)

/-- The answer to a query. -/
inductive SlotAnswer where
  | groups (gs : List SlotGroup)
  | flag (b : Bool)
  | subslot (sub : Option String)
  | ebuild (e : Option Ebuild)
  | ebuilds (es : List Ebuild)
  | guess (guessed : Bool × Installed)
  deriving DecidableEq

namespace SlotQuery

/-- Asks a package that keeps what it works out. -/
def ask : SlotQuery → StateM MemoPackage SlotAnswer
  | slotGroups => return .groups (← MemoPackage.slotGroups)
  | hasSlots => return .flag (← MemoPackage.hasSlots)
  | commonSubslot => return .subslot (← MemoPackage.commonSubslot)
  | bestIn slot unstable => return .ebuild (← MemoPackage.bestIn slot unstable)
  | bestOfSlots unstable => return .ebuilds (← MemoPackage.bestOfSlots unstable)
  | guessSlot source forced i => return .guess (← MemoPackage.guessSlot source forced i)

/-- The answer of a package that works everything out anew. -/
def answer (p : Package) : SlotQuery → SlotAnswer
  | slotGroups => .groups p.slotGroups
  | hasSlots => .flag p.hasSlots
  | commonSubslot => .subslot p.commonSubslot
  | bestIn slot unstable => .ebuild (p.bestIn slot unstable)
  | bestOfSlots unstable => .ebuilds (p.bestOfSlots unstable)
  | guessSlot source forced i => .guess (p.guessSlot source forced i)

open MemoPackage in
theorem yields_ask (p : Package) (q : SlotQuery) : Yields p q.ask (q.answer p) := by
  cases q with
  | slotGroups => exact (yields_slotGroups p).bind (.pure p _)
  | hasSlots => exact (yields_hasSlots p).bind (.pure p _)
  | commonSubslot => exact (yields_commonSubslot p).bind (.pure p _)
  | bestIn slot unstable => exact (yields_bestIn p slot unstable).bind (.pure p _)
  | bestOfSlots unstable => exact (yields_bestOfSlots p unstable).bind (.pure p _)
  | guessSlot source forced i => exact (yields_guessSlot p source forced i).bind (.pure p _)

end SlotQuery

/-! ## Requests -/

/-- What is wanted of a package: another ebuild is added, it is copied with what it keeps, or it is
asked. -/
inductive Action where
  | add (e : Ebuild)
  | copy
  | ask (q : SlotQuery)

/-- A request to one of some packages. -/
structure Request where
  place : Nat
  action : Action

namespace Request

variable {ms : List MemoPackage} {m : MemoPackage}

/-- Serves a request on packages that keep what they work out. Only a query has an answer, and a
copy becomes the last package. -/
def serve (r : Request) : StateM (List MemoPackage) (Option SlotAnswer) := fun ms =>
  match ms[r.place]? with
  | none => (none, ms)
  | some m =>
    match r.action with
    | .add e => (none, ms.set r.place (m.add e))
    | .copy => (none, ms ++ [m])
    | .ask q => (some (q.ask m).1, ms.set r.place (q.ask m).2)

/-- Serves requests one after the other. -/
def serveAll : List Request → StateM (List MemoPackage) (List (Option SlotAnswer))
  | [] => return []
  | r :: rs => return (← r.serve) :: (← serveAll rs)

/-- Performs a request on packages that work everything out anew. -/
def perform (r : Request) : StateM (List Package) (Option SlotAnswer) := fun ps =>
  match ps[r.place]? with
  | none => (none, ps)
  | some p =>
    match r.action with
    | .add e => (none, ps.set r.place (p.add e))
    | .copy => (none, ps ++ [p])
    | .ask q => (some (q.answer p), ps)

/-- Performs requests one after the other. -/
def performAll : List Request → StateM (List Package) (List (Option SlotAnswer))
  | [] => return []
  | r :: rs => return (← r.perform) :: (← performAll rs)

/-- The answer is the one that is worked out anew, and so are the packages that are left; what they
keep is fresh. -/
structure Agrees {α : Type} (served : α × List MemoPackage) (performed : α × List Package) :
    Prop where
  answer : served.1 = performed.1
  packages : served.2.map MemoPackage.package = performed.2
  fresh : ∀ m ∈ served.2, m.Fresh

theorem fresh_of_mem_set {i : Nat} {o : MemoPackage} (h : ∀ m ∈ ms, m.Fresh) (ho : o.Fresh) :
    ∀ m ∈ ms.set i o, m.Fresh := by
  intro m hm
  rcases List.mem_or_eq_of_mem_set hm with hm | rfl
  · exact h m hm
  · exact ho

theorem agrees_serve (h : ∀ m ∈ ms, m.Fresh) (r : Request) :
    Agrees (r.serve ms) (r.perform (ms.map MemoPackage.package)) := by
  unfold serve perform
  rw [List.getElem?_map]
  cases hplace : ms[r.place]? with
  | none => exact ⟨rfl, rfl, h⟩
  | some m =>
    have hm : m.Fresh := h m (List.mem_of_getElem? hplace)
    cases r.action with
    | add e =>
      refine ⟨rfl, List.map_set .., fresh_of_mem_set h (MemoPackage.fresh_add m e)⟩
    | copy =>
      refine ⟨rfl, List.map_append .., fun o ho => ?_⟩
      rcases List.mem_append.1 ho with ho | ho
      · exact h o ho
      · exact List.mem_singleton.1 ho ▸ hm
    | ask q =>
      obtain ⟨hanswer, hpackage, hfresh⟩ := q.yields_ask m.package m hm rfl
      refine ⟨congrArg some hanswer, ?_, fresh_of_mem_set h hfresh⟩
      -- The package itself is not changed, so putting it back changes nothing.
      have hsame : (ms.map MemoPackage.package)[r.place]? = some m.package := by
        rw [List.getElem?_map, hplace]
        rfl
      obtain ⟨hlt, hget⟩ := List.getElem?_eq_some_iff.1 hsame
      rw [List.map_set, hpackage, ← hget]
      exact List.set_getElem_self hlt

theorem agrees_serveAll (rs : List Request) (h : ∀ m ∈ ms, m.Fresh) :
    Agrees (serveAll rs ms) (performAll rs (ms.map MemoPackage.package)) := by
  induction rs generalizing ms with
  | nil => exact ⟨rfl, rfl, h⟩
  | cons r rs ih =>
    obtain ⟨hanswer, hpackages, hfresh⟩ := agrees_serve h r
    obtain ⟨hanswers, hrest, hfresh⟩ := ih hfresh
    rw [hpackages] at hanswers hrest
    exact ⟨congrArg₂ List.cons hanswer hanswers, hrest, hfresh⟩

/-- However requests to a package and its copies follow one another, every answer is the one that is
worked out anew from the ebuilds at that time. What each package then tells divides its ebuilds
among their slots, and the sub-slot that it tells is the one that all of them have. -/
theorem slots_never_stale (p : Package) (rs : List Request) :
    (serveAll rs [{ package := p }]).1 = (performAll rs [p]).1 ∧
      (serveAll rs [{ package := p }]).2.map MemoPackage.package = (performAll rs [p]).2 ∧
      ∀ m ∈ (serveAll rs [{ package := p }]).2,
        m.Fresh ∧ m.package.Divided (MemoPackage.slotGroups m).1 ∧
        ∀ sub, (MemoPackage.commonSubslot m).1 = some sub ↔
          m.package.ebuilds ≠ [] ∧ ∀ e ∈ m.package.ebuilds, e.slot.sub = some sub := by
  have hstart : ∀ m ∈ [{ package := p : MemoPackage }], m.Fresh := by
    intro m hm
    obtain rfl := List.mem_singleton.1 hm
    exact ⟨nofun, nofun⟩
  obtain ⟨hanswers, hpackages, hfresh⟩ := agrees_serveAll rs hstart
  refine ⟨hanswers, hpackages, fun m hm => ?_⟩
  obtain ⟨hgroups, -, -⟩ := MemoPackage.yields_slotGroups m.package m (hfresh m hm) rfl
  obtain ⟨hsubslot, -, -⟩ := MemoPackage.yields_commonSubslot m.package m (hfresh m hm) rfl
  refine ⟨hfresh m hm, hgroups ▸ m.package.divided_slotGroups, fun sub => ?_⟩
  rw [hsubslot]
  exact Package.commonSubslot_eq_some_iff

-- The older ebuild comes second, and moves the newer one away from the place it was grouped at.
def larchNew : Ebuild := { version := ⟨⟨2, []⟩, [], none, [], []⟩, slot := ⟨"0", some "a"⟩ }

def larchOld : Ebuild := { version := ⟨⟨1, []⟩, [], none, [], []⟩, slot := ⟨"1", none⟩ }

def larchRequests : List Request :=
  [⟨0, .add larchNew⟩, ⟨0, .ask .slotGroups⟩, ⟨0, .ask .commonSubslot⟩, ⟨0, .copy⟩,
    ⟨0, .add larchOld⟩, ⟨1, .ask (.guessSlot none none ⟨larchOld.version, none, none⟩)⟩,
    ⟨0, .ask .slotGroups⟩, ⟨1, .ask .slotGroups⟩, ⟨0, .ask .commonSubslot⟩, ⟨0, .ask .hasSlots⟩]

/-- The package groups its ebuilds anew, while its copy goes on with what it kept. -/
theorem slots_never_stale_larch :
    let run := serveAll larchRequests [MemoPackage.new "a" "larch"]
    run.1 =
        [none, some (.groups [⟨"0", [0]⟩]), some (.subslot (some "a")), none, none,
          some (.guess (true, ⟨larchOld.version, some "0", some "a"⟩)),
          some (.groups [⟨"1", [0]⟩, ⟨"0", [1]⟩]), some (.groups [⟨"0", [0]⟩]),
          some (.subslot none), some (.flag true)] ∧
      ∃ m ∈ run.2, m.package.ebuilds = [larchOld, larchNew] ∧
        m.groups? = some [⟨"1", [0]⟩, ⟨"0", [1]⟩] ∧
        m.package.Divided (MemoPackage.slotGroups m).1 := by
  intro run
  obtain ⟨hanswers, -, hall⟩ := slots_never_stale ⟨"a", "larch", "", "", "", "", .empty, .empty⟩
    larchRequests
  have hmem : run.2.head (by decide +kernel) ∈ run.2 := List.head_mem _
  obtain ⟨-, hdivided, -⟩ := hall _ hmem
  exact ⟨hanswers.trans (by decide +kernel), _, hmem, by decide +kernel, by decide +kernel,
    hdivided⟩

end Request

end PackageIndex
