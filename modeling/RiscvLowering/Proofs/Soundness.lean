import Mathlib.Data.List.Nodup
import RiscvLowering.Ssa.Integrity

/-!
# Soundness — what a function should be, and what may be wrong with it

A function is sound when its ids lead somewhere and its schedules repeat
nothing. What is wrong with a function that is not sound is said place by place:

* `Func.Sound` — the conditions on a function's ids, one field each;
* `Place` — the places where an id stands, with the order `Place.Before` in
  which they are looked at: values by index (the id before the arguments),
  block ids in layout order, then block by block the schedule, the control
  value and the successors, and last the slots in ascending order;
* `Func.FaultAt` — what is wrong at a place, said of that place alone.

Main results:

* `sound_iff_forall_not_faultAt` — a function is sound exactly when nothing is
  wrong at any place.
* `lists_flatten` — parts in order, of which each lists faults of its own, list
  the faults of all.
* `Lists.head_iff` — the head of a list of faults is the one at the first place.
-/

namespace RiscvLowering

/-! ## Sound functions -/

namespace Func

/-- The id is an index of the arena. -/
def HasValue (f : Func) (id : ValueId) : Prop := id.toNat < f.values.length

/-- The id is that of some block. -/
def HasBlock (f : Func) (id : BlockId) : Prop := ∃ b ∈ f.blocks, b.id = id

/-- Every id leads somewhere, and every schedule entry is the only one of its
value, in the block that the value belongs to. -/
structure Sound (f : Func) : Prop where
  ids : ∀ (i : Nat) (v : Value), f.values[i]? = some v → v.id.toNat = i
  args : ∀ v ∈ f.values, ∀ id ∈ v.args, f.HasValue id
  blockIds : (f.blocks.map (·.id)).Nodup
  entries : ∀ b ∈ f.blocks, ∀ id ∈ b.values, ∃ v, f.value? id = some v ∧ v.block = b.id
  once : (f.blocks.flatMap (·.values)).Nodup
  controls : ∀ b ∈ f.blocks, ∀ id, b.control = some id → f.HasValue id
  succs : ∀ b ∈ f.blocks, ∀ id ∈ b.succs, f.HasBlock id
  slots : ∀ id ∈ f.slots.keys, f.HasValue id

theorem value?_eq_none_iff {f : Func} {id : ValueId} :
    f.value? id = none ↔ ¬ f.HasValue id := by
  rw [value?, List.getElem?_eq_none_iff, HasValue, Nat.not_lt]

/-- An id that a lookup finds is the id of a value. -/
theorem hasValue_of_value? {f : Func} {id : ValueId} {v : Value}
    (h : f.value? id = some v) : f.HasValue id := by
  by_contra hNo
  rw [value?_eq_none_iff.mpr hNo] at h
  simp at h

/-- In a sound function a lookup finds a value of that very id. -/
theorem Sound.id_eq {f : Func} {id : ValueId} {v : Value} (h : f.Sound)
    (hv : f.value? id = some v) : v.id = id := UInt32.toNat_inj.mp (h.ids _ _ hv)

/-- The values that the blocks schedule, in layout order. -/
def scheduled (f : Func) : List Value := (f.blocks.flatMap (·.values)).filterMap f.value?

/-- What a schedule names and a lookup finds is scheduled. -/
theorem mem_scheduled {f : Func} {b : Block} {id : ValueId} {v : Value} (hb : b ∈ f.blocks)
    (hId : id ∈ b.values) (hv : f.value? id = some v) : v ∈ f.scheduled :=
  List.mem_filterMap.mpr ⟨id, List.mem_flatMap.mpr ⟨b, hb, hId⟩, hv⟩

theorem block?_eq_none_iff {f : Func} {id : BlockId} :
    f.block? id = none ↔ ¬ f.HasBlock id := by
  simp [block?, HasBlock]

end Func

/-! ## Places and their faults -/

/-- A place of a function where an id stands. Blocks are given by their place
in the layout. -/
inductive Place where
  | valueId (index : Nat)
  | argument (index position : Nat)
  | blockId (layout : Nat)
  | entry (layout position : Nat)
  | control (layout : Nat)
  | successor (layout position : Nat)
  | slot (id : ValueId)
deriving DecidableEq

namespace Place

/-- The walk over the function that meets the place. -/
def pass : Place → Nat
  | valueId _ | argument _ _ => 0
  | blockId _ => 1
  | entry _ _ | control _ | successor _ _ => 2
  | slot _ => 3

/-- The value or block that the place belongs to, as that walk counts them. -/
def holder : Place → Nat
  | valueId i | argument i _ => i
  | blockId k | entry k _ | control k | successor k _ => k
  | slot id => id.toNat

def part : Place → Nat
  | valueId _ | blockId _ | entry _ _ | slot _ => 0
  | argument _ _ | control _ => 1
  | successor _ _ => 2

def position : Place → Nat
  | argument _ j | entry _ j | successor _ j => j
  | valueId _ | blockId _ | control _ | slot _ => 0

/-- The order in which places are looked at. -/
def Before (p q : Place) : Prop :=
  p.pass < q.pass ∨ p.pass = q.pass ∧
    (p.holder < q.holder ∨ p.holder = q.holder ∧
      (p.part < q.part ∨ p.part = q.part ∧ p.position < q.position))

theorem Before.irrefl {p : Place} : ¬ p.Before p := by
  unfold Before
  omega

/-- Of two places at most one comes first. -/
theorem Before.asymm {p q : Place} (hpq : p.Before q) : ¬ q.Before p := by
  unfold Before at *
  omega

end Place

namespace Func

/-- The id is scheduled at an earlier place than the `j`-th of the `k`-th block. -/
def ScheduledBefore (f : Func) (k j : Nat) (id : ValueId) : Prop :=
  ∃ k' j' b, f.blocks[k']? = some b ∧ b.values[j']? = some id ∧
    (k' < k ∨ k' = k ∧ j' < j)

/-- What is wrong with an entry of a schedule. An entry of no value has no
owner to compare, and only an entry of the right block can be a repetition. -/
inductive EntryFault (f : Func) (k j : Nat) (b : Block) (id : ValueId) :
    IntegrityFault → Prop
  | unknown : ¬ f.HasValue id → EntryFault f k j b id (.unknownValue (.block b.id) id)
  | foreign {v : Value} : f.value? id = some v → v.block ≠ b.id →
      EntryFault f k j b id (.membership id b.id v.block)
  | repeated {v : Value} : f.value? id = some v → v.block = b.id →
      f.ScheduledBefore k j id → EntryFault f k j b id (.scheduledTwice id)

/-- What is wrong at a place. -/
def FaultAt (f : Func) : Place → IntegrityFault → Prop
  | .valueId i, e =>
    ∃ v, f.values[i]? = some v ∧ v.id.toNat ≠ i ∧ e = .idMismatch i v.id
  | .argument i j, e =>
    ∃ v id, f.values[i]? = some v ∧ v.args[j]? = some id ∧ ¬ f.HasValue id ∧
      e = .unknownValue (.value v.id) id
  | .blockId k, e =>
    ∃ b, f.blocks[k]? = some b ∧ (∃ k' < k, ∃ b', f.blocks[k']? = some b' ∧ b'.id = b.id) ∧
      e = .duplicateBlock b.id
  | .entry k j, e =>
    ∃ b id, f.blocks[k]? = some b ∧ b.values[j]? = some id ∧ f.EntryFault k j b id e
  | .control k, e =>
    -- that a control value belongs to its block is left to the lowering of branches
    ∃ b id, f.blocks[k]? = some b ∧ b.control = some id ∧ ¬ f.HasValue id ∧
      e = .unknownValue (.controlOf b.id) id
  | .successor k j, e =>
    ∃ b id, f.blocks[k]? = some b ∧ b.succs[j]? = some id ∧ ¬ f.HasBlock id ∧
      e = .unknownBlock (.block b.id) id
  | .slot id, e =>
    id ∈ f.slots.keys ∧ ¬ f.HasValue id ∧ e = .unknownValue .slots id

end Func

namespace Func

variable {f : Func}

/-- Schedules repeat nothing exactly if nowhere an entry was scheduled before, be it in an earlier
block or earlier in its own. -/
theorem nodup_schedule_iff :
    (f.blocks.flatMap (·.values)).Nodup ↔
      ∀ (k j : Nat) (b : Block) (id : ValueId), f.blocks[k]? = some b → b.values[j]? = some id →
        ¬ f.ScheduledBefore k j id := by
  -- nothing is repeated within a block, nor between two blocks
  rw [List.nodup_flatMap]
  constructor
  · rintro ⟨hOwn, hOthers⟩ k j b id hb hid ⟨k', j', b', hb', hid', hEarlier⟩
    obtain ⟨hk, rfl⟩ := List.getElem?_eq_some_iff.mp hb
    obtain ⟨hk', rfl⟩ := List.getElem?_eq_some_iff.mp hb'
    rcases hEarlier with hlt | ⟨rfl, hlt⟩
    · -- an earlier block
      exact List.pairwise_iff_getElem.mp hOthers k' k hk' hk hlt
        (List.mem_of_getElem? hid') (List.mem_of_getElem? hid)
    · -- earlier in the same block
      obtain ⟨hj, rfl⟩ := List.getElem?_eq_some_iff.mp hid
      obtain ⟨hj', heq⟩ := List.getElem?_eq_some_iff.mp hid'
      exact List.pairwise_iff_getElem.mp (hOwn _ (List.getElem_mem hk)) j' j hj' hj hlt heq
  · intro hNone
    constructor
    · -- within a block: the earlier of two places would have been before
      intro b hb
      obtain ⟨k, hk⟩ := List.mem_iff_getElem?.mp hb
      refine List.pairwise_iff_getElem.mpr fun j' j hj' hj hlt heq => ?_
      have hid : b.values[j]? = some b.values[j] := List.getElem?_eq_getElem hj
      have hid' : b.values[j']? = some b.values[j] := by
        rw [List.getElem?_eq_getElem hj', heq]
      exact hNone k j b _ hk hid ⟨k, j', b, hk, hid', Or.inr ⟨rfl, hlt⟩⟩
    · -- between blocks: so would the place in the earlier block
      refine List.pairwise_iff_getElem.mpr fun k' k hk' hk hlt id hIn' hIn => ?_
      obtain ⟨j', hid'⟩ := List.mem_iff_getElem?.mp hIn'
      obtain ⟨j, hid⟩ := List.mem_iff_getElem?.mp hIn
      exact hNone k j _ id (List.getElem?_eq_getElem hk) hid
        ⟨k', j', _, List.getElem?_eq_getElem hk', hid', Or.inl hlt⟩

/-- Each condition of soundness excludes the faults at one kind of place. -/
theorem Sound.not_faultAt (hSound : f.Sound) (p : Place) (e : IntegrityFault) :
    ¬ f.FaultAt p e := by
  intro hFault
  cases p with
  | valueId i =>
    obtain ⟨v, hv, hNe, -⟩ := hFault
    exact hNe (hSound.ids i v hv)
  | argument i j =>
    obtain ⟨v, id, hv, hid, hNo, -⟩ := hFault
    exact hNo (hSound.args v (List.mem_of_getElem? hv) id (List.mem_of_getElem? hid))
  | blockId k =>
    obtain ⟨b, hb, ⟨k', hlt, b', hb', hid⟩, -⟩ := hFault
    -- the block and an earlier one of its id would be two of one id
    have hNodup := List.pairwise_map.mp hSound.blockIds
    obtain ⟨hk, rfl⟩ := List.getElem?_eq_some_iff.mp hb
    obtain ⟨hk', rfl⟩ := List.getElem?_eq_some_iff.mp hb'
    exact List.pairwise_iff_getElem.mp hNodup k' k hk' hk hlt hid
  | entry k j =>
    obtain ⟨b, id, hb, hid, hEntry⟩ := hFault
    obtain ⟨v, hv, hOwner⟩ :=
      hSound.entries b (List.mem_of_getElem? hb) id (List.mem_of_getElem? hid)
    -- the kinds of fault exclude each other, and soundness excludes each
    cases hEntry with
    | unknown hNo => exact hNo (hasValue_of_value? hv)
    | foreign hv' hOther =>
      obtain rfl := Option.some.inj (hv.symm.trans hv')
      exact hOther hOwner
    | repeated _ _ hBefore => exact nodup_schedule_iff.mp hSound.once k j b id hb hid hBefore
  | control k =>
    obtain ⟨b, id, hb, hid, hNo, -⟩ := hFault
    exact hNo (hSound.controls b (List.mem_of_getElem? hb) id hid)
  | successor k j =>
    obtain ⟨b, id, hb, hid, hNo, -⟩ := hFault
    exact hNo (hSound.succs b (List.mem_of_getElem? hb) id (List.mem_of_getElem? hid))
  | slot id =>
    obtain ⟨hIn, hNo, -⟩ := hFault
    exact hNo (hSound.slots id hIn)

/-- A function without faults at any place is sound, place by place. -/
theorem sound_of_forall_not_faultAt (hNone : ∀ p e, ¬ f.FaultAt p e) : f.Sound := by
  -- an entry needs its value and its owner before it can be a repetition
  have hEntry : ∀ (k j : Nat) (b : Block) (id : ValueId), f.blocks[k]? = some b →
      b.values[j]? = some id → ∃ v, f.value? id = some v ∧ v.block = b.id := by
    intro k j b id hb hid
    cases hv : f.value? id with
    | none =>
      exact absurd ⟨b, id, hb, hid, .unknown (value?_eq_none_iff.mp hv)⟩
        (hNone (.entry k j) _)
    | some v =>
      by_contra hOwner
      exact hNone (.entry k j) _ ⟨b, id, hb, hid, .foreign hv (by simpa using hOwner)⟩
  refine ⟨?_, ?_, ?_, ?_, ?_, ?_, ?_, ?_⟩
  · intro i v hv
    by_contra hNe
    exact hNone (.valueId i) _ ⟨v, hv, hNe, rfl⟩
  · intro v hv id hid
    obtain ⟨i, hi⟩ := List.mem_iff_getElem?.mp hv
    obtain ⟨j, hj⟩ := List.mem_iff_getElem?.mp hid
    by_contra hNo
    exact hNone (.argument i j) _ ⟨v, id, hi, hj, hNo, rfl⟩
  · refine List.pairwise_map.mpr (List.pairwise_iff_getElem.mpr fun k' k hk' hk hlt heq => ?_)
    exact hNone (.blockId k) _ ⟨_, List.getElem?_eq_getElem hk,
      ⟨k', hlt, _, List.getElem?_eq_getElem hk', heq⟩, rfl⟩
  · intro b hb id hid
    obtain ⟨k, hk⟩ := List.mem_iff_getElem?.mp hb
    obtain ⟨j, hj⟩ := List.mem_iff_getElem?.mp hid
    exact hEntry k j b id hk hj
  · refine nodup_schedule_iff.mpr fun k j b id hb hid hBefore => ?_
    obtain ⟨v, hv, hOwner⟩ := hEntry k j b id hb hid
    exact hNone (.entry k j) _ ⟨b, id, hb, hid, .repeated hv hOwner hBefore⟩
  · intro b hb id hid
    obtain ⟨k, hk⟩ := List.mem_iff_getElem?.mp hb
    by_contra hNo
    exact hNone (.control k) _ ⟨b, id, hk, hid, hNo, rfl⟩
  · intro b hb id hid
    obtain ⟨k, hk⟩ := List.mem_iff_getElem?.mp hb
    obtain ⟨j, hj⟩ := List.mem_iff_getElem?.mp hid
    by_contra hNo
    exact hNone (.successor k j) _ ⟨b, id, hk, hj, hNo, rfl⟩
  · intro id hid
    by_contra hNo
    exact hNone (.slot id) _ ⟨hid, hNo, rfl⟩

/-- **A function is sound exactly when nothing is wrong at any place.** -/
theorem sound_iff_forall_not_faultAt : f.Sound ↔ ∀ p e, ¬ f.FaultAt p e :=
  ⟨Sound.not_faultAt, sound_of_forall_not_faultAt⟩

end Func

/-! ## Lists of faults in order -/

/-- The list holds the faults that `P` puts at places, one for each place, in
the order of the places. -/
def Lists (P : Place → IntegrityFault → Prop) (es : List IntegrityFault) : Prop :=
  ∃ L : List (Place × IntegrityFault), L.map (·.2) = es ∧
    L.Pairwise (fun x y => x.1.Before y.1) ∧ ∀ p e, (p, e) ∈ L ↔ P p e

theorem Lists.congr {P Q : Place → IntegrityFault → Prop} {es : List IntegrityFault}
    (h : Lists P es) (hPQ : ∀ p e, P p e ↔ Q p e) : Lists Q es := by
  obtain ⟨L, hMap, hOrder, hMem⟩ := h
  exact ⟨L, hMap, hOrder, fun p e => (hMem p e).trans (hPQ p e)⟩

/-- A part about a single place lists what is found there. -/
theorem lists_at {P : Place → IntegrityFault → Prop} {es : List IntegrityFault}
    (p₀ : Place) (hLen : es.length ≤ 1) (hP : ∀ p e, P p e ↔ p = p₀ ∧ e ∈ es) :
    Lists P es := by
  refine ⟨es.map (p₀, ·), by simp [Function.comp_def], ?_, ?_⟩
  · -- one fault at most is in any order
    match es, hLen with
    | [], _ => simp
    | [e], _ => simp
  · intro p e
    rw [hP, List.mem_map]
    constructor
    · rintro ⟨e', he', heq⟩
      obtain ⟨rfl, rfl⟩ := Prod.mk.inj heq
      exact ⟨rfl, he'⟩
    · rintro ⟨rfl, he⟩
      exact ⟨e, he, rfl⟩

/-- Parts in order, of which each lists faults of its own, together list the
faults of all. -/
theorem lists_flatten {P : Place → IntegrityFault → Prop} {ess : List (List IntegrityFault)}
    (Q : Nat → Place → IntegrityFault → Prop)
    (hParts : ∀ (i : Nat) (es : List IntegrityFault), ess[i]? = some es → Lists (Q i) es)
    (hOrder : ∀ i j p q e e', i < j → Q i p e → Q j q e' → p.Before q)
    (hP : ∀ p e, P p e ↔ ∃ i < ess.length, Q i p e) :
    Lists P ess.flatten := by
  -- the prefix of the first `n` parts lists their faults
  suffices hPrefix : ∀ n ≤ ess.length,
      Lists (fun p e => ∃ i < n, Q i p e) (ess.take n).flatten by
    have hAll := hPrefix ess.length (Nat.le_refl _)
    rw [List.take_length] at hAll
    exact hAll.congr fun p e => (hP p e).symm
  intro n hn
  induction n with
  | zero => exact ⟨[], by simp⟩
  | succ n ih =>
    obtain ⟨L, hMap, hPair, hMem⟩ := ih (Nat.le_of_succ_le hn)
    have hGet : ess[n]? = some ess[n] := List.getElem?_eq_getElem hn
    obtain ⟨L', hMap', hPair', hMem'⟩ := hParts n ess[n] hGet
    -- the next part lies behind all the parts before it
    refine ⟨L ++ L', ?_, ?_, ?_⟩
    · rw [List.take_add_one, hGet, List.map_append, hMap, hMap', List.flatten_append,
        Option.toList_some, List.flatten_singleton]
    · refine List.pairwise_append.mpr ⟨hPair, hPair', ?_⟩
      rintro ⟨p, e⟩ hp ⟨q, e'⟩ hq
      obtain ⟨i, hi, hQp⟩ := (hMem p e).mp hp
      exact hOrder i n p q e e' hi hQp ((hMem' q e').mp hq)
    · intro p e
      rw [List.mem_append, hMem, hMem']
      constructor
      · rintro (⟨i, hi, hQ⟩ | hQ)
        · exact ⟨i, Nat.lt_succ_of_lt hi, hQ⟩
        · exact ⟨n, Nat.lt_succ_self n, hQ⟩
      · rintro ⟨i, hi, hQ⟩
        rcases Nat.lt_succ_iff_lt_or_eq.mp hi with hlt | rfl
        · exact Or.inl ⟨i, hlt, hQ⟩
        · exact Or.inr hQ

/-- The head of a list of faults is the fault at the first place that has one. -/
theorem Lists.head_iff {P : Place → IntegrityFault → Prop} {es : List IntegrityFault}
    (h : Lists P es) (e : IntegrityFault) :
    es.head? = some e ↔ ∃ p, P p e ∧ ∀ q e', P q e' → q = p ∨ p.Before q := by
  obtain ⟨L, rfl, hPair, hMem⟩ := h
  cases L with
  | nil =>
    -- no place has a fault, so none is the first
    have hNone : ∀ p, ¬ P p e := fun p hp => by simpa using (hMem p e).mpr hp
    simp [hNone]
  | cons x L =>
    obtain ⟨hHead, -⟩ := List.pairwise_cons.mp hPair
    have hFirst : P x.1 x.2 := (hMem x.1 x.2).mp (by simp)
    rw [List.map_cons, List.head?_cons, Option.some.injEq]
    constructor
    · rintro rfl
      refine ⟨x.1, hFirst, fun q e' hq => ?_⟩
      rcases List.mem_cons.mp ((hMem q e').mpr hq) with rfl | hIn
      · exact Or.inl rfl
      · exact Or.inr (hHead _ hIn)
    · rintro ⟨p, hp, hMin⟩
      rcases List.mem_cons.mp ((hMem p e).mpr hp) with rfl | hIn
      · rfl
      · -- a later place cannot be the first one
        have hLater : x.1.Before p := hHead _ hIn
        rcases hMin x.1 x.2 hFirst with heq | hBefore
        · rw [heq] at hLater
          exact absurd hLater Place.Before.irrefl
        · exact absurd hLater hBefore.asymm

/-- Nothing is listed exactly if nothing is wrong anywhere. -/
theorem Lists.eq_nil_iff {P : Place → IntegrityFault → Prop} {es : List IntegrityFault}
    (h : Lists P es) : es = [] ↔ ∀ p e, ¬ P p e := by
  obtain ⟨L, rfl, -, hMem⟩ := h
  simp only [List.map_eq_nil_iff, ← hMem]
  rw [List.eq_nil_iff_forall_not_mem, Prod.forall]

/-- The bad ones of a list in order of their places, each at a place of its own. -/
theorem lists_filter {α : Type} {P : Place → IntegrityFault → Prop} {xs : List α}
    (bad : α → Bool) (fault : α → IntegrityFault) (place : Nat → α → Place)
    (hOrder : ∀ (i j : Nat) (x y : α), xs[i]? = some x → xs[j]? = some y → i < j →
      (place i x).Before (place j y))
    (hP : ∀ p e, P p e ↔ ∃ i x, xs[i]? = some x ∧ bad x ∧ p = place i x ∧ e = fault x) :
    Lists P ((xs.filter bad).map fault) := by
  -- one part for each member, with its fault or none
  have hParts : (xs.filter bad).map fault =
      (xs.map fun x => if bad x then [fault x] else []).flatten := by
    clear hOrder hP
    induction xs with
    | nil => rfl
    | cons x xs ih =>
      rw [List.filter_cons, List.map_cons, List.flatten_cons, ← ih]
      split <;> rfl
  rw [hParts]
  apply lists_flatten fun i p e => ∃ x, xs[i]? = some x ∧ bad x ∧ p = place i x ∧ e = fault x
  · intro i es hes
    rw [List.getElem?_map, Option.map_eq_some_iff] at hes
    obtain ⟨x, hx, rfl⟩ := hes
    apply lists_at (place i x)
    · split <;> simp
    · intro p e
      by_cases hBad : bad x = true <;> simp [hx, hBad]
  · rintro i j p q e e' hij ⟨x, hx, -, rfl, -⟩ ⟨y, hy, -, rfl, -⟩
    exact hOrder i j x y hx hy hij
  · intro p e
    rw [hP, List.length_map]
    constructor
    · rintro ⟨i, x, hx, hRest⟩
      exact ⟨i, (List.getElem?_eq_some_iff.mp hx).1, x, hx, hRest⟩
    · rintro ⟨i, -, x, hx, hRest⟩
      exact ⟨i, x, hx, hRest⟩

end RiscvLowering
