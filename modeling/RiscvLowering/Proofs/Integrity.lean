import RiscvLowering.Proofs.Soundness

/-!
# Integrity — what the check of a function decides

`Func.check` walks a function once and reports the first breach that it meets.
The walk is taken apart here: each of its parts is a list of the faults at some
of the places, in their order, and so the whole is one of the faults at all.

Main results:

* `lists_faults` — the faults that the walk finds are those at the places of the
  function, in the order of the places.
* `check_eq_ok_iff` — the check accepts exactly the sound functions.
* `check_reports_first_fault` — with it, the fault reported is the one at the
  first place where anything is wrong.
-/

namespace RiscvLowering

/-! ## The walk as a list of parts -/

/-- A walk over members with their places is one part after the other. -/
theorem zipIdx_flatMap_eq_flatten {α β : Type} (g : α → Nat → List β) (xs : List α) (n : Nat) :
    (xs.zipIdx n).flatMap (fun (x, i) => g x i) = (xs.mapIdx fun i x => g x (n + i)).flatten := by
  induction xs generalizing n with
  | nil => rfl
  | cons x xs ih =>
    rw [List.zipIdx_cons, List.flatMap_cons, ih, List.mapIdx_cons, List.flatten_cons]
    simp only [Nat.add_zero, Nat.add_assoc, Nat.add_comm 1]

/-- The repeated ids are those that were seen already, place by place. -/
theorem map_repeats_eq_flatten {α : Type} (g : BlockId → α) (seen ids : List BlockId) :
    (repeats seen ids).map g =
      (ids.mapIdx fun k id =>
        if id ∈ (ids.take k).reverse ++ seen then [g id] else []).flatten := by
  -- what was seen grows at its front, so the ids taken stand in reverse
  induction ids generalizing seen with
  | nil => rfl
  | cons x xs ih =>
    rw [repeats, List.map_append, ih, List.mapIdx_cons, List.flatten_cons]
    by_cases hx : x ∈ seen <;> simp [hx]

namespace Func

variable (f : Func)

/-- The walk of a schedule is one part for each entry, given what stands before it. -/
theorem scheduleFaults_eq_flatten (b : Block) (seen ids : List ValueId) :
    f.scheduleFaults b seen ids =
      (ids.mapIdx fun j id => f.entryFaults b ((ids.take j).reverse ++ seen) id).flatten := by
  -- for any ids seen before, as each entry adds its own
  induction ids generalizing seen with
  | nil => rfl
  | cons id ids ih =>
    rw [scheduleFaults, ih, List.mapIdx_cons, List.flatten_cons]
    simp

/-- What is wrong with a block, when the values in `seen` are scheduled before. -/
def blockFaults (b : Block) (seen : List ValueId) : List IntegrityFault :=
  [f.scheduleFaults b seen b.values,
    f.danglingValues (.controlOf b.id) b.control.toList,
    f.danglingSuccs b].flatten

/-- The walk of the blocks is one part for each, given what the blocks before it schedule. -/
theorem layoutFaults_eq_flatten (seen : List ValueId) (bs : List Block) :
    f.layoutFaults seen bs =
      (bs.mapIdx fun k b =>
        f.blockFaults b (((bs.take k).flatMap (·.values)).reverse ++ seen)).flatten := by
  -- for any ids seen before, as each block adds its schedule
  induction bs generalizing seen with
  | nil => rfl
  | cons b bs ih =>
    rw [layoutFaults, ih, List.mapIdx_cons, List.flatten_cons]
    simp [blockFaults]

theorem faults_eq_flatten :
    f.faults = [(f.values.mapIdx fun i v => f.valueFaults v i).flatten,
      (repeats [] (f.blocks.map (·.id))).map .duplicateBlock,
      f.layoutFaults [] f.blocks,
      f.danglingValues .slots f.slots.keys].flatten := by
  rw [faults, zipIdx_flatMap_eq_flatten]
  simp

/-! ## The parts list their faults -/

variable {f}

/-- The faults of a walk over values or blocks, holder by holder. -/
theorem lists_mapIdx {α : Type} {xs : List α} {n : Nat} (g : Nat → α → List IntegrityFault)
    (hParts : ∀ (i : Nat) (x : α), xs[i]? = some x →
      Lists (fun p e => p.pass = n ∧ p.holder = i ∧ f.FaultAt p e) (g i x))
    (hBound : ∀ p e, p.pass = n → f.FaultAt p e → p.holder < xs.length) :
    Lists (fun p e => p.pass = n ∧ f.FaultAt p e) (xs.mapIdx g).flatten := by
  apply lists_flatten fun i p e => p.pass = n ∧ p.holder = i ∧ f.FaultAt p e
  · intro i es hes
    rw [List.getElem?_mapIdx, Option.map_eq_some_iff] at hes
    obtain ⟨x, hx, rfl⟩ := hes
    exact hParts i x hx
  · -- an earlier holder comes first, whatever its parts
    rintro i j p q e e' hlt ⟨hp, hi, -⟩ ⟨hq, hj, -⟩
    unfold Place.Before
    omega
  · intro p e
    rw [List.length_mapIdx]
    constructor
    · rintro ⟨hPass, hFault⟩
      exact ⟨p.holder, hBound p e hPass hFault, hPass, rfl, hFault⟩
    · rintro ⟨i, -, hPass, -, hFault⟩
      exact ⟨hPass, hFault⟩

/-- A fault of a value or a block is at one that the function has. -/
theorem FaultAt.holder_lt {p : Place} {e : IntegrityFault} (h : f.FaultAt p e) :
    (p.pass = 0 → p.holder < f.values.length) ∧
      (p.pass = 1 ∨ p.pass = 2 → p.holder < f.blocks.length) := by
  have hLt : ∀ {α : Type} {xs : List α} {i : Nat} {x : α}, xs[i]? = some x → i < xs.length :=
    fun hx => (List.getElem?_eq_some_iff.mp hx).1
  -- the fault names the value or block at its place, so there is one
  cases p with
  | valueId i =>
    obtain ⟨v, hv, -⟩ := h
    exact ⟨fun _ => hLt hv, fun hPass => by simp [Place.pass] at hPass⟩
  | argument i j =>
    obtain ⟨v, id, hv, -⟩ := h
    exact ⟨fun _ => hLt hv, fun hPass => by simp [Place.pass] at hPass⟩
  | blockId k =>
    obtain ⟨b, hb, -⟩ := h
    exact ⟨fun hPass => by simp [Place.pass] at hPass, fun _ => hLt hb⟩
  | entry k j =>
    obtain ⟨b, id, hb, -⟩ := h
    exact ⟨fun hPass => by simp [Place.pass] at hPass, fun _ => hLt hb⟩
  | control k =>
    obtain ⟨b, id, hb, -⟩ := h
    exact ⟨fun hPass => by simp [Place.pass] at hPass, fun _ => hLt hb⟩
  | successor k j =>
    obtain ⟨b, id, hb, -⟩ := h
    exact ⟨fun hPass => by simp [Place.pass] at hPass, fun _ => hLt hb⟩
  | slot id => simp [Place.pass]

/-- The faults of a value or a block, part by part. -/
theorem lists_parts {pass holder : Nat} {ess : List (List IntegrityFault)}
    (hParts : ∀ (n : Nat) (es : List IntegrityFault), ess[n]? = some es →
      Lists (fun p e => p.part = n ∧ p.pass = pass ∧ p.holder = holder ∧ f.FaultAt p e) es)
    (hBound : ∀ p : Place, p.pass = pass → p.part < ess.length) :
    Lists (fun p e => p.pass = pass ∧ p.holder = holder ∧ f.FaultAt p e) ess.flatten := by
  apply lists_flatten
    (fun n p e => p.part = n ∧ p.pass = pass ∧ p.holder = holder ∧ f.FaultAt p e) hParts
  · -- in one holder, an earlier part comes first
    rintro n n' p q e e' hlt ⟨hn, hp, hi, -⟩ ⟨hn', hq, hi', -⟩
    unfold Place.Before
    omega
  · intro p e
    constructor
    · intro hFault
      exact ⟨p.part, hBound p hFault.1, rfl, hFault⟩
    · rintro ⟨n, -, -, hFault⟩
      exact hFault

/-- The place of an entry among those scheduled before, as the walk counts them. -/
theorem mem_seen_iff {k j : Nat} {b : Block} {id : ValueId} (hb : f.blocks[k]? = some b) :
    id ∈ (b.values.take j).reverse ++ (((f.blocks.take k).flatMap (·.values)).reverse ++ []) ↔
      f.ScheduledBefore k j id := by
  simp only [List.append_nil, List.mem_append, List.mem_reverse, List.mem_flatMap]
  constructor
  · -- earlier entries of the block, or entries of earlier blocks
    rintro (hEarlier | ⟨b', hb', hid⟩)
    · obtain ⟨j', hj', hGet⟩ := List.mem_take_iff_getElem.mp hEarlier
      exact ⟨k, j', b, hb, by rw [List.getElem?_eq_some_iff]; exact ⟨by omega, hGet⟩,
        Or.inr ⟨rfl, by omega⟩⟩
    · obtain ⟨k', hk', hGet⟩ := List.mem_take_iff_getElem.mp hb'
      obtain ⟨j', hj'⟩ := List.mem_iff_getElem?.mp hid
      exact ⟨k', j', b', by rw [List.getElem?_eq_some_iff]; exact ⟨by omega, hGet⟩, hj',
        Or.inl (by omega)⟩
  · rintro ⟨k', j', b', hb', hid, hlt | ⟨rfl, hlt⟩⟩
    · right
      refine ⟨b', ?_, List.mem_iff_getElem?.mpr ⟨j', hid⟩⟩
      rw [List.mem_iff_getElem?]
      exact ⟨k', by rw [List.getElem?_take_of_lt hlt]; exact hb'⟩
    · left
      rw [hb] at hb'
      obtain rfl := Option.some.inj hb'
      rw [List.mem_iff_getElem?]
      exact ⟨j', by rw [List.getElem?_take_of_lt hlt]; exact hid⟩

theorem isNone_value?_iff {id : ValueId} : (f.value? id).isNone = true ↔ ¬ f.HasValue id := by
  rw [Option.isNone_iff_eq_none, value?_eq_none_iff]

/-- The first part of a value is about its own id. -/
theorem lists_idFaults {i : Nat} {v : Value} (hv : f.values[i]? = some v) :
    Lists (fun p e => p.part = 0 ∧ p.pass = 0 ∧ p.holder = i ∧ f.FaultAt p e)
      (if v.id.toNat = i then [] else [.idMismatch i v.id]) := by
  apply lists_at (.valueId i)
  · split <;> simp
  · intro p e
    -- of the places in this part, only the id of the value itself is meant
    constructor
    · rintro ⟨hPart, hPass, hHolder, hFault⟩
      cases p with
      | valueId i' =>
        obtain rfl : i' = i := hHolder
        obtain ⟨v', hv', hNe, rfl⟩ := hFault
        obtain rfl := Option.some.inj (hv.symm.trans hv')
        exact ⟨rfl, by simp [hNe]⟩
      | _ => simp [Place.part, Place.pass] at hPart hPass
    · rintro ⟨rfl, he⟩
      split at he
      · simp at he
      · rename_i hNe
        exact ⟨rfl, rfl, rfl, v, hv, hNe, by simpa using he⟩

/-- The second part of a value is about its arguments, in their order. -/
theorem lists_argumentFaults {i : Nat} {v : Value} (hv : f.values[i]? = some v) :
    Lists (fun p e => p.part = 1 ∧ p.pass = 0 ∧ p.holder = i ∧ f.FaultAt p e)
      (f.danglingValues (.value v.id) v.args) := by
  apply lists_filter _ _ fun j _ => .argument i j
  · -- arguments are looked at in their order
    intro j j' _ _ _ _ hlt
    simp [Place.Before, Place.part, Place.pass, Place.holder, Place.position, hlt]
  · intro p e
    constructor
    · rintro ⟨hPart, hPass, hHolder, hFault⟩
      cases p with
      | argument i' j =>
        obtain rfl : i' = i := hHolder
        obtain ⟨v', id, hv', hid, hNo, rfl⟩ := hFault
        obtain rfl := Option.some.inj (hv.symm.trans hv')
        exact ⟨j, id, hid, isNone_value?_iff.mpr hNo, rfl, rfl⟩
      | _ => simp [Place.part, Place.pass] at hPart hPass
    · rintro ⟨j, id, hid, hNo, rfl, rfl⟩
      exact ⟨rfl, rfl, rfl, v, id, hv, hid, isNone_value?_iff.mp hNo, rfl⟩

/-- The id of a value comes first, then come its arguments. -/
theorem lists_valueFaults {i : Nat} {v : Value} (hv : f.values[i]? = some v) :
    Lists (fun p e => p.pass = 0 ∧ p.holder = i ∧ f.FaultAt p e) (f.valueFaults v i) := by
  have hParts : f.valueFaults v i =
      [if v.id.toNat = i then [] else [.idMismatch i v.id],
        f.danglingValues (.value v.id) v.args].flatten := by
    simp [valueFaults]
  rw [hParts]
  apply lists_parts
  · -- a value has two parts
    intro n es hes
    match n with
    | 0 =>
      obtain rfl := Option.some.inj hes
      exact lists_idFaults hv
    | 1 =>
      obtain rfl := Option.some.inj hes
      exact lists_argumentFaults hv
    | n + 2 => simp at hes
  · intro p hPass
    -- and no place of a value is in another part
    cases p <;> simp_all [Place.part, Place.pass]

/-- At an entry of a schedule at most one fault is found, and it is the one that is there. -/
theorem lists_entryFaults {k j : Nat} {b : Block} {id : ValueId} {seen : List ValueId}
    (hb : f.blocks[k]? = some b) (hid : b.values[j]? = some id)
    (hSeen : id ∈ seen ↔ f.ScheduledBefore k j id) :
    Lists (fun p e => p = .entry k j ∧ f.FaultAt p e) (f.entryFaults b seen id) := by
  apply lists_at (.entry k j)
  · -- each test stops at its fault, so there is one at most
    unfold entryFaults
    split
    · simp
    · split
      · simp
      · split <;> simp
  · intro p e
    -- the kinds of fault rule each other out as the tests do, in whatever order
    refine and_congr_right fun hp => ?_
    subst hp
    have hHere : f.FaultAt (.entry k j) e ↔ f.EntryFault k j b id e := by
      constructor
      · rintro ⟨b', id', hb', hid', hFault⟩
        obtain rfl := Option.some.inj (hb.symm.trans hb')
        obtain rfl := Option.some.inj (hid.symm.trans hid')
        exact hFault
      · exact fun hFault => ⟨b, id, hb, hid, hFault⟩
    rw [hHere, entryFaults]
    constructor
    · rintro (hNo | ⟨hv, hOwner⟩ | ⟨hv, hOwner, hBefore⟩)
      · simp [value?_eq_none_iff.mpr hNo]
      · simp [hv, hOwner]
      · simp [hv, hOwner, hSeen.mpr hBefore]
    · intro he
      split at he
      · rename_i hNone
        rw [List.mem_singleton] at he
        exact he ▸ .unknown (value?_eq_none_iff.mp hNone)
      · rename_i v hv
        split at he
        · rename_i hOwner
          rw [List.mem_singleton] at he
          exact he ▸ .foreign hv hOwner
        · rename_i hOwner
          split at he
          · rename_i hIn
            rw [List.mem_singleton] at he
            exact he ▸ .repeated hv (not_not.mp hOwner) (hSeen.mp hIn)
          · simp at he

/-- The first part of a block is about its schedule, entry by entry. -/
theorem lists_scheduleFaults {k : Nat} {b : Block} (hb : f.blocks[k]? = some b) :
    Lists (fun p e => p.part = 0 ∧ p.pass = 2 ∧ p.holder = k ∧ f.FaultAt p e)
      (f.scheduleFaults b (((f.blocks.take k).flatMap (·.values)).reverse ++ []) b.values) := by
  rw [scheduleFaults_eq_flatten]
  apply lists_flatten fun j p e => p = .entry k j ∧ f.FaultAt p e
  · intro j es hes
    rw [List.getElem?_mapIdx, Option.map_eq_some_iff] at hes
    obtain ⟨id, hid, rfl⟩ := hes
    exact lists_entryFaults hb hid (mem_seen_iff hb)
  · -- entries are looked at in their order
    rintro j j' p q e e' hlt ⟨rfl, -⟩ ⟨rfl, -⟩
    simp [Place.Before, Place.part, Place.pass, Place.holder, Place.position, hlt]
  · intro p e
    rw [List.length_mapIdx]
    constructor
    · rintro ⟨hPart, hPass, hHolder, hFault⟩
      cases p with
      | entry k' j =>
        obtain rfl : k' = k := hHolder
        obtain ⟨b', id, hb', hid, hEntry⟩ := hFault
        obtain rfl := Option.some.inj (hb.symm.trans hb')
        exact ⟨j, (List.getElem?_eq_some_iff.mp hid).1, rfl, b, id, hb, hid, hEntry⟩
      | _ => simp [Place.part, Place.pass] at hPart hPass
    · rintro ⟨j, -, rfl, hFault⟩
      exact ⟨rfl, rfl, rfl, hFault⟩

/-- The second part of a block is about its control value, if it has one. -/
theorem lists_controlFaults {k : Nat} {b : Block} (hb : f.blocks[k]? = some b) :
    Lists (fun p e => p.part = 1 ∧ p.pass = 2 ∧ p.holder = k ∧ f.FaultAt p e)
      (f.danglingValues (.controlOf b.id) b.control.toList) := by
  apply lists_filter _ _ fun _ _ => .control k
  · intro i j x y hx hy hlt
    -- there is at most one control value
    have hLen : b.control.toList.length ≤ 1 := by cases b.control <;> simp
    have := (List.getElem?_eq_some_iff.mp hy).1
    omega
  · intro p e
    constructor
    · rintro ⟨hPart, hPass, hHolder, hFault⟩
      cases p with
      | control k' =>
        obtain rfl : k' = k := hHolder
        obtain ⟨b', id, hb', hid, hNo, rfl⟩ := hFault
        obtain rfl := Option.some.inj (hb.symm.trans hb')
        exact ⟨0, id, by simp [hid], isNone_value?_iff.mpr hNo, rfl, rfl⟩
      | _ => simp [Place.part, Place.pass] at hPart hPass
    · rintro ⟨j, id, hid, hNo, rfl, rfl⟩
      have hControl : b.control = some id := by
        rw [← Option.mem_toList]
        exact List.mem_of_getElem? hid
      exact ⟨rfl, rfl, rfl, b, id, hb, hControl, isNone_value?_iff.mp hNo, rfl⟩

/-- The third part of a block is about its successors, in their order. -/
theorem lists_successorFaults {k : Nat} {b : Block} (hb : f.blocks[k]? = some b) :
    Lists (fun p e => p.part = 2 ∧ p.pass = 2 ∧ p.holder = k ∧ f.FaultAt p e)
      (f.danglingSuccs b) := by
  apply lists_filter _ _ fun j _ => .successor k j
  · intro j j' _ _ _ _ hlt
    simp [Place.Before, Place.part, Place.pass, Place.holder, Place.position, hlt]
  · have hBad : ∀ id, (f.block? id).isNone = true ↔ ¬ f.HasBlock id := fun id => by
      rw [Option.isNone_iff_eq_none, block?_eq_none_iff]
    -- of the places of a block in this pass only those of successors are in the third part
    intro p e
    constructor
    · rintro ⟨hPart, hPass, hHolder, hFault⟩
      cases p with
      | successor k' j =>
        obtain rfl : k' = k := hHolder
        obtain ⟨b', id, hb', hid, hNo, rfl⟩ := hFault
        obtain rfl := Option.some.inj (hb.symm.trans hb')
        exact ⟨j, id, hid, (hBad id).mpr hNo, rfl, rfl⟩
      | _ => simp [Place.part] at hPart
    · rintro ⟨j, id, hid, hNo, rfl, rfl⟩
      exact ⟨rfl, rfl, rfl, b, id, hb, hid, (hBad id).mp hNo, rfl⟩

/-- The schedule of a block comes first, then its control value and its successors. -/
theorem lists_blockFaults {k : Nat} {b : Block} (hb : f.blocks[k]? = some b) :
    Lists (fun p e => p.pass = 2 ∧ p.holder = k ∧ f.FaultAt p e)
      (f.blockFaults b (((f.blocks.take k).flatMap (·.values)).reverse ++ [])) := by
  apply lists_parts
  · -- a block has three parts
    intro n es hes
    match n with
    | 0 =>
      obtain rfl := Option.some.inj hes
      exact lists_scheduleFaults hb
    | 1 =>
      obtain rfl := Option.some.inj hes
      exact lists_controlFaults hb
    | 2 =>
      obtain rfl := Option.some.inj hes
      exact lists_successorFaults hb
    | n + 3 => simp at hes
  · intro p _
    cases p <;> simp [Place.part]

/-- The blocks before the `k`-th that have its id, as the walk counts them. -/
theorem mem_take_ids_iff {k : Nat} {id : BlockId} :
    id ∈ ((f.blocks.map (·.id)).take k).reverse ++ [] ↔
      ∃ k' < k, ∃ b', f.blocks[k']? = some b' ∧ b'.id = id := by
  -- the walk keeps the ids it has seen in reverse
  rw [List.append_nil, List.mem_reverse, List.mem_iff_getElem?]
  simp only [List.getElem?_take, List.getElem?_map]
  constructor
  · rintro ⟨k', hk'⟩
    split at hk'
    · rename_i hlt
      obtain ⟨b', hb', heq⟩ := Option.map_eq_some_iff.mp hk'
      exact ⟨k', hlt, b', hb', heq⟩
    · simp at hk'
  · rintro ⟨k', hlt, b', hb', heq⟩
    exact ⟨k', by rw [if_pos hlt, hb', Option.map_some, heq]⟩

/-- The blocks whose id an earlier block has. -/
theorem lists_duplicates :
    Lists (fun p e => p.pass = 1 ∧ f.FaultAt p e)
      ((repeats [] (f.blocks.map (·.id))).map .duplicateBlock) := by
  rw [map_repeats_eq_flatten]
  apply lists_mapIdx
  · intro k id hid
    rw [List.getElem?_map, Option.map_eq_some_iff] at hid
    obtain ⟨b, hb, rfl⟩ := hid
    apply lists_at (.blockId k)
    · -- a block id is reported once, however often it came before
      split <;> simp
    · intro p e
      constructor
      · rintro ⟨hPass, hHolder, hFault⟩
        cases p with
        | blockId k' =>
          obtain rfl : k' = k := hHolder
          obtain ⟨b', hb', hTwice, rfl⟩ := hFault
          obtain rfl := Option.some.inj (hb.symm.trans hb')
          rw [if_pos (mem_take_ids_iff.mpr hTwice)]
          exact ⟨rfl, List.mem_singleton.mpr rfl⟩
        | _ => simp [Place.pass] at hPass
      · rintro ⟨rfl, he⟩
        split at he
        · rename_i hIn
          exact ⟨rfl, rfl, b, hb, mem_take_ids_iff.mp hIn, List.mem_singleton.mp he⟩
        · simp at he
  · intro p e hPass hFault
    rw [List.length_map]
    exact hFault.holder_lt.2 (Or.inl hPass)

/-- The last part of the walk is about the slots, in ascending order of their values. -/
theorem lists_slotFaults :
    Lists (fun p e => p.pass = 3 ∧ f.FaultAt p e) (f.danglingValues .slots f.slots.keys) := by
  apply lists_filter _ _ fun _ id => .slot id
  · intro i j x y hx hy hlt
    -- the table is kept in ascending order
    have hAscending : f.slots.keys.Pairwise (· < ·) :=
      List.pairwise_map.mpr f.slots.ascending
    obtain ⟨hi, rfl⟩ := List.getElem?_eq_some_iff.mp hx
    obtain ⟨hj, rfl⟩ := List.getElem?_eq_some_iff.mp hy
    have hKeys := UInt32.lt_iff_toNat_lt.mp (List.pairwise_iff_getElem.mp hAscending i j hi hj hlt)
    simp [Place.Before, Place.part, Place.pass, Place.holder, Place.position, hKeys]
  · intro p e
    constructor
    · rintro ⟨hPass, hFault⟩
      cases p with
      | slot id =>
        obtain ⟨hIn, hNo, rfl⟩ := hFault
        obtain ⟨i, hi⟩ := List.mem_iff_getElem?.mp hIn
        exact ⟨i, id, hi, isNone_value?_iff.mpr hNo, rfl, rfl⟩
      | _ => simp [Place.pass] at hPass
    · rintro ⟨i, id, hi, hNo, rfl, rfl⟩
      exact ⟨rfl, List.mem_of_getElem? hi, isNone_value?_iff.mp hNo, rfl⟩

/-- The faults of a function are those at its places, in the order of the places. -/
theorem lists_faults : Lists f.FaultAt f.faults := by
  rw [faults_eq_flatten]
  apply lists_flatten fun n p e => p.pass = n ∧ f.FaultAt p e
  · intro n es hes
    -- values, block ids, blocks and slots, in this order
    match n with
    | 0 =>
      obtain rfl := Option.some.inj hes
      exact lists_mapIdx _ (fun i v hv => lists_valueFaults hv)
        fun p e hPass hFault => hFault.holder_lt.1 hPass
    | 1 =>
      obtain rfl := Option.some.inj hes
      exact lists_duplicates
    | 2 =>
      obtain rfl := Option.some.inj hes
      rw [layoutFaults_eq_flatten]
      exact lists_mapIdx _ (fun k b hb => lists_blockFaults hb)
        fun p e hPass hFault => hFault.holder_lt.2 (Or.inr hPass)
    | 3 =>
      obtain rfl := Option.some.inj hes
      exact lists_slotFaults
    | n + 4 => simp at hes
  · rintro n n' p q e e' hlt ⟨hn, -⟩ ⟨hn', -⟩
    unfold Place.Before
    omega
  · intro p e
    constructor
    · intro hFault
      refine ⟨p.pass, ?_, rfl, hFault⟩
      cases p <;> simp [Place.pass]
    · rintro ⟨n, -, -, hFault⟩
      exact hFault

/-! ## The check -/

/-- The check reports the first of the faults that the walk finds. -/
theorem check_eq_error_iff {e : IntegrityFault} : f.check = .error e ↔ f.faults.head? = some e := by
  rw [check]
  split <;> rename_i h <;> simp [h]

/-- **The check accepts exactly the sound functions.** -/
theorem check_eq_ok_iff : f.check = .ok () ↔ f.Sound := by
  rw [sound_iff_forall_not_faultAt, ← lists_faults.eq_nil_iff, check]
  split <;> rename_i h <;> simp [h]

/-- **The check decides soundness and reports the first fault.** The order of
places is the one in which a reader of the function would go through them, and
what is said of a place is what is wrong there. -/
theorem check_reports_first_fault (f : Func) :
    (f.check = .ok () ↔ f.Sound) ∧
      ∀ e, f.check = .error e ↔
        ∃ p, f.FaultAt p e ∧ ∀ q e', f.FaultAt q e' → q = p ∨ p.Before q :=
  ⟨check_eq_ok_iff, fun e => check_eq_error_iff.trans (lists_faults.head_iff e)⟩

end Func

end RiscvLowering
