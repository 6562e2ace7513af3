import RiscvLowering.Proofs.Basic
import RiscvLowering.Proofs.Building
import RiscvLowering.Proofs.Integrity

/-!
# Built functions — order, and what is left to check

* `Numbered` — ids that are their places.
* `Func.InOrder` — values and blocks are numbered, and schedules list values of
  their block in ascending order.
* `Func.Closed` — all ids that are mentioned are small enough.
* `Builder.Stands` — what a call hands out is as the call says, in the end.

Main results:

* `InOrder.sound_iff` — a function in order is sound exactly if it is closed.
* `after_inOrder` — a run of calls keeps the order.
* `stands` — what a call hands out stands, whatever is called before and after.
* `built_in_order` — the whole of it, for any run of calls.
-/

namespace RiscvLowering

/-! ## Functions in order -/

/-- A fault of an id that leads nowhere. -/
inductive IntegrityFault.Dangling : IntegrityFault → Prop
  | value (referrer : Referrer) (id : ValueId) : Dangling (.unknownValue referrer id)
  | block (referrer : Referrer) (id : BlockId) : Dangling (.unknownBlock referrer id)

/-- The ids are their places: the first is 0, the next 1 and so on. -/
def Numbered (ids : List UInt32) : Prop :=
  ∀ (i : Nat) (id : UInt32), ids[i]? = some id → id.toNat = i

namespace Numbered

variable {ids : List UInt32}

/-- The next number goes on with the numbering, as long as it fits 32 bits. -/
theorem concat (h : Numbered ids) (hLength : ids.length < UInt32.size) :
    Numbered (ids ++ [.ofNat ids.length]) := by
  intro i id hId
  -- an old id is at its place, and the new one is at the end
  rw [List.getElem?_append] at hId
  split at hId
  · exact h i id hId
  · rename_i hPast
    rw [List.getElem?_singleton] at hId
    split at hId
    · obtain rfl := Option.some.inj hId
      rw [UInt32.toNat_ofNat_of_lt' hLength]
      omega
    · cases hId

theorem nodup (h : Numbered ids) : ids.Nodup := by
  rw [List.nodup_iff_getElem?_ne_getElem?]
  intro i j hlt hj hSame
  -- one id at two places would be both of these numbers
  have hId := List.getElem?_eq_getElem hj
  have hi := h i _ (hSame.trans hId)
  have hj := h j _ hId
  omega

/-- An id is one of them if there are that many. -/
theorem mem_iff (h : Numbered ids) {id : UInt32} : id ∈ ids ↔ id.toNat < ids.length := by
  constructor
  · intro hIn
    obtain ⟨i, hi⟩ := List.mem_iff_getElem?.mp hIn
    rw [h i id hi]
    exact (List.getElem?_eq_some_iff.mp hi).1
  · intro hlt
    have hGet := List.getElem?_eq_getElem hlt
    rw [← UInt32.toNat_inj.mp (h _ _ hGet)]
    exact List.getElem_mem hlt

end Numbered

namespace Func

/-- Values and blocks have their places as ids, and each schedule lists values
of its block in the order in which they were numbered. -/
structure InOrder (f : Func) : Prop where
  valueIds : Numbered (f.values.map (·.id))
  blockIds : Numbered (f.blocks.map (·.id))
  owned : ∀ b ∈ f.blocks, ∀ id ∈ b.values, ∃ v, f.value? id = some v ∧ v.block = b.id
  ascending : ∀ b ∈ f.blocks, b.values.Pairwise (· < ·)

/-- All that is left to ask of a function in order. -/
structure Closed (f : Func) : Prop where
  args : ∀ v ∈ f.values, ∀ id ∈ v.args, id.toNat < f.values.length
  controls : ∀ b ∈ f.blocks, ∀ id, b.control = some id → id.toNat < f.values.length
  slots : ∀ id ∈ f.slots.keys, id.toNat < f.values.length
  succs : ∀ b ∈ f.blocks, ∀ id ∈ b.succs, id.toNat < f.blocks.length

namespace InOrder

variable {f : Func} (hOrder : f.InOrder)

include hOrder

theorem hasBlock_iff {id : BlockId} : f.HasBlock id ↔ id.toNat < f.blocks.length := by
  rw [← List.length_map (f := (·.id)), ← hOrder.blockIds.mem_iff, List.mem_map]
  rfl

/-- Ascending schedules of values that each have one owner repeat nothing. -/
theorem nodup_entries : (f.blocks.flatMap (·.values)).Nodup := by
  rw [List.nodup_flatMap]
  constructor
  · -- a schedule ascends, so it repeats nothing itself
    intro b hb
    exact (hOrder.ascending b hb).imp UInt32.ne_of_lt
  · refine (List.pairwise_map.mp hOrder.blockIds.nodup).imp_of_mem ?_
    -- a value in two schedules would have two owners, and ids tell blocks apart
    intro b b' hb hb' hIds id hIn hIn'
    obtain ⟨v, hv, hOwner⟩ := hOrder.owned b hb id hIn
    obtain ⟨v', hv', hOwner'⟩ := hOrder.owned b' hb' id hIn'
    obtain rfl := Option.some.inj (hv.symm.trans hv')
    exact hIds (hOwner.symm.trans hOwner')

theorem index_valueId (i : Nat) (v : Value) (hv : f.values[i]? = some v) : v.id.toNat = i := by
  apply hOrder.valueIds
  rw [List.getElem?_map, hv]
  rfl

/-- With the order given, what soundness adds is that no id is too large. -/
theorem sound_iff : f.Sound ↔ f.Closed := by
  constructor
  · intro hSound
    exact ⟨hSound.args, hSound.controls, hSound.slots, fun b hb id hId =>
      hOrder.hasBlock_iff.mp (hSound.succs b hb id hId)⟩
  · intro hClosed
    exact {
      ids := hOrder.index_valueId
      args := hClosed.args
      blockIds := hOrder.blockIds.nodup
      entries := hOrder.owned
      once := hOrder.nodup_entries
      controls := hClosed.controls
      succs := fun b hb id hId => hOrder.hasBlock_iff.mpr (hClosed.succs b hb id hId)
      slots := hClosed.slots }

/-- What may be wrong with a function in order are ids of nothing. -/
theorem fault_unknown {p : Place} {e : IntegrityFault} (hFault : f.FaultAt p e) :
    e.Dangling := by
  cases p with
  | valueId i =>
    obtain ⟨v, hv, hNe, -⟩ := hFault
    exact absurd (hOrder.index_valueId i v hv) hNe
  | argument i j =>
    obtain ⟨v, id, -, -, -, rfl⟩ := hFault
    exact .value _ _
  | blockId k =>
    obtain ⟨b, hb, ⟨k', hlt, b', hb', hSame⟩, -⟩ := hFault
    -- two blocks of one id would be at one place
    have hk := hOrder.blockIds k b.id (by rw [List.getElem?_map, hb]; rfl)
    have hk' := hOrder.blockIds k' b'.id (by rw [List.getElem?_map, hb']; rfl)
    rw [hSame] at hk'
    omega
  | entry k j =>
    obtain ⟨b, id, hb, hId, hEntry⟩ := hFault
    cases hEntry with
    | unknown => exact .value _ _
    | foreign hv hOther =>
      obtain ⟨v', hv', hOwner⟩ :=
        hOrder.owned b (List.mem_of_getElem? hb) id (List.mem_of_getElem? hId)
      obtain rfl := Option.some.inj (hv.symm.trans hv')
      exact absurd hOwner hOther
    -- an ascending schedule in one block, and values that know their block, repeat nothing
    | repeated _ _ hBefore =>
      exact absurd hBefore (nodup_schedule_iff.mp hOrder.nodup_entries k j b id hb hId)
  | control k =>
    obtain ⟨b, id, -, -, -, rfl⟩ := hFault
    exact .value _ _
  | successor k j =>
    obtain ⟨b, id, -, -, -, rfl⟩ := hFault
    exact .block _ _
  | slot id =>
    obtain ⟨-, -, rfl⟩ := hFault
    exact .value _ _

/-- The check of a function in order complains of nothing but an id of nothing. -/
theorem check_error_unknown {e : IntegrityFault} (hCheck : f.check = .error e) :
    e.Dangling := by
  obtain ⟨p, hFault, -⟩ := (lists_faults.head_iff e).mp (check_eq_error_iff.mp hCheck)
  exact hOrder.fault_unknown hFault

/-- A new block with the next number keeps the order; it schedules nothing yet. -/
theorem addBlock (hBlocks : f.blocks.length < UInt32.size) (kind : BlockKind) :
    InOrder { f with blocks := f.blocks ++ [{ id := .ofNat f.blocks.length, kind }] } where
  valueIds := hOrder.valueIds
  blockIds := by
    have hNew := hOrder.blockIds.concat (by simpa using hBlocks)
    simpa using hNew
  owned := by
    intro b hb
    -- the new block schedules nothing, so only the old ones have entries
    rcases List.mem_append.mp hb with hOld | hNew
    · exact hOrder.owned b hOld
    · obtain rfl := List.mem_singleton.mp hNew
      simp
  ascending := by
    intro b hb
    rcases List.mem_append.mp hb with hOld | hNew
    · exact hOrder.ascending b hOld
    · obtain rfl := List.mem_singleton.mp hNew
      exact .nil

/-- A value goes to the end of the arena and to the end of its block, if there is one. -/
theorem addValue (hValues : f.values.length < UInt32.size) {v : Value}
    (hId : v.id = .ofNat f.values.length) :
    InOrder { f with
      blocks := modifyBlock v.block (.schedule v.id) f.blocks
      values := f.values ++ [v] } := by
  have hNumber : v.id.toNat = f.values.length := by rw [hId, UInt32.toNat_ofNat_of_lt' hValues]
  have hOld : ∀ b ∈ f.blocks, ∀ id ∈ b.values,
      ∃ w, (f.values ++ [v])[id.toNat]? = some w ∧ w.block = b.id := by
    intro b hb id hIn
    obtain ⟨w, hw, hOwner⟩ := hOrder.owned b hb id hIn
    rw [List.getElem?_append_left (hasValue_of_value? hw)]
    exact ⟨w, hw, hOwner⟩
  refine ⟨?_, ?_, ?_, ?_⟩
  · have hNew := hOrder.valueIds.concat (by simpa using hValues)
    simpa [hId] using hNew
  · rw [map_id_schedule]
    exact hOrder.blockIds
  · intro b hb id hIn
    rcases mem_modifyBlock hb with hSame | ⟨b, hOne, hOwner, rfl⟩
    · exact hOld b hSame id hIn
    · rcases List.mem_append.mp hIn with hEarlier | hLast
      · exact hOld b hOne id hEarlier
      · obtain rfl := List.mem_singleton.mp hLast
        refine ⟨v, ?_, hOwner.symm⟩
        rw [value?, hNumber, List.getElem?_concat_length]
  · intro b hb
    rcases mem_modifyBlock hb with hSame | ⟨b, hOne, -, rfl⟩
    · exact hOrder.ascending b hSame
    · -- all entries so far are of earlier values
      refine List.pairwise_append.mpr
        ⟨hOrder.ascending b hOne, List.pairwise_singleton _ _, fun id hIn last hLast => ?_⟩
      obtain rfl := List.mem_singleton.mp hLast
      obtain ⟨w, hw, -⟩ := hOrder.owned b hOne id hIn
      rw [UInt32.lt_iff_toNat_lt, hNumber]
      exact hasValue_of_value? hw

end InOrder

/-- A block of an annotated function was there before, with its id and its schedule. -/
theorem Annotates.mem {f f' : Func} (h : f.Annotates f') {b' : Block} (hb : b' ∈ f'.blocks) :
    ∃ b ∈ f.blocks, b.id = b'.id ∧ b.values = b'.values := by
  have hCore : b'.core ∈ f.blocks.map (·.core) := h.cores ▸ List.mem_map_of_mem hb
  obtain ⟨b, hb, hSame⟩ := List.mem_map.mp hCore
  exact ⟨b, hb, congrArg (·.1) hSame, congrArg (·.2) hSame⟩

/-- An annotation keeps the order, which is a matter of ids and schedules. -/
theorem Annotates.inOrder {f f' : Func} (h : f.Annotates f') (hOrder : f.InOrder) :
    f'.InOrder where
  valueIds := by
    rw [h.values]
    exact hOrder.valueIds
  blockIds := by
    rw [h.ids]
    exact hOrder.blockIds
  owned := by
    intro b' hb' id hIn
    -- the block was there before, under the same id and with the same schedule
    obtain ⟨b, hb, hId, hEntries⟩ := h.mem hb'
    rw [value?, h.values, ← hId]
    exact hOrder.owned b hb id (hEntries ▸ hIn)
  ascending := by
    intro b' hb'
    obtain ⟨b, hb, -, hEntries⟩ := h.mem hb'
    exact hEntries ▸ hOrder.ascending b hb

end Func

/-! ## Calls keep the order -/

namespace Builder

variable {f f' : Func} {c : Call} {a : Answer}

/-- A call keeps the order, as long as there are numbers left. -/
theorem Effect.inOrder (h : Effect f c a f') (hOrder : f.InOrder)
    (hBlocks : f.blocks.length < UInt32.size) (hValues : f.values.length < UInt32.size) :
    f'.InOrder := by
  cases h with
  | block kind => exact hOrder.addBlock hBlocks kind
  | value block op ty args setters id hId =>
    have hNew := hOrder.addValue hValues
      (v := ({ id, op, ty, args, block } : Value).setAll setters) (by rw [Value.setAll_id, hId])
    rwa [Value.setAll_id, Value.setAll_block] at hNew
  | note _ _ hNote => exact hNote.inOrder hOrder

/-- A run of calls keeps the order. -/
theorem after_inOrder (calls : List Call) (hOrder : f.InOrder)
    (hBlocks : (after f calls).blocks.length < UInt32.size)
    (hValues : (after f calls).values.length < UInt32.size) : (after f calls).InOrder := by
  induction calls generalizing f with
  | nil => exact hOrder
  | cons c calls ih =>
    -- there are never more of them before the calls than after
    have hNow : f.blocks.length < UInt32.size ∧ f.values.length < UInt32.size := by
      rw [length_blocks_after] at hBlocks
      rw [length_values_after] at hValues
      omega
    exact ih ((c.effect f).inOrder hOrder hNow.1 hNow.2) hBlocks hValues

end Builder

/-! ## What a call hands out stands -/

namespace Builder

/-- What the `n`-th call of a run handed out stands in the built function. A
block keeps its id and kind, and is besides what the later calls say of it. A
value keeps its id and all its fields; it is scheduled once, in the block it
belongs to, if there was such a block when it was added, and else nowhere. -/
def Stands (name : String) (calls : List Call) (n : Nat) : Call → Prop
  | .block kind => ∃ id, (answers name calls)[n]? = some (.block id) ∧
      (built name calls).block? id = some (({ id, kind } : Block).told (calls.drop (n + 1))
        ((answers name calls).drop (n + 1)))
  | .value b op ty args setters => ∃ id, (answers name calls)[n]? = some (.value id) ∧
      (built name calls).value? id =
        some (({ id, op, ty, args, block := b } : Value).setAll setters) ∧
      ((built name calls).blocks.flatMap (·.values)).count id =
        (if ((built name (calls.take n)).block? b).isSome then 1 else 0) ∧
      ∀ c ∈ (built name calls).blocks, id ∈ c.values → c.id = b
  | _ => True

variable {f f' f'' : Func} {a : Answer}

/-- A block that is added is found under the id that is handed out. -/
theorem Effect.block_found {kind : BlockKind} (h : Effect f (.block kind) a f')
    (hOrder : f'.InOrder) :
    ∃ id, a = .block id ∧ f'.block? id = some { id, kind } := by
  cases h with
  | block =>
    -- ids do not repeat, so the lookup finds the new block
    have hNew : ({ id := .ofNat f.blocks.length, kind } : Block) ∈
        f.blocks ++ [{ id := .ofNat f.blocks.length, kind }] :=
      List.mem_append_right _ (List.mem_singleton_self _)
    exact ⟨_, rfl, find?_key hOrder.blockIds.nodup hNew⟩
  | note hBlock => cases hBlock

/-- A value that is added stands under its id for good, scheduled once in its block if there is one,
and nowhere else. -/
theorem Effect.value_stands {b : BlockId} {op : Op} {ty : Ty} {args : List ValueId}
    {setters : List Setter} (h : Effect f (.value b op ty args setters) a f')
    (hFrom : f.InOrder) (hValues : f.values.length < UInt32.size)
    (hGrows : f'.Grows f'') (hOrder : f''.InOrder) :
    ∃ id, a = .value id ∧
      f''.value? id = some (({ id, op, ty, args, block := b } : Value).setAll setters) ∧
      (f''.blocks.flatMap (·.values)).count id = (if (f.block? b).isSome then 1 else 0) ∧
      ∀ c ∈ f''.blocks, id ∈ c.values → c.id = b := by
  cases h with
  | value _ _ _ _ _ id hId =>
    have hNumber : id.toNat = f.values.length := by rw [hId, UInt32.toNat_ofNat_of_lt' hValues]
    -- its number is its place at the end of the arena
    have hNow : Func.value? { f with
        blocks := modifyBlock b (.schedule id) f.blocks
        values := f.values ++ [({ id, op, ty, args, block := b } : Value).setAll setters] } id =
          some (({ id, op, ty, args, block := b } : Value).setAll setters) := by
      rw [Func.value?, hNumber, List.getElem?_concat_length]
    have hStays := hGrows.value? hNow
    refine ⟨id, rfl, hStays, ?_, ?_⟩
    · -- nothing scheduled the id before, and nothing does so later
      have hFresh : id ∉ f.blocks.flatMap (·.values) := by
        intro hIn
        obtain ⟨c, hc, hEntry⟩ := List.mem_flatMap.mp hIn
        obtain ⟨v, hv, -⟩ := hFrom.owned c hc id hEntry
        have hOld := Func.hasValue_of_value? hv
        rw [Func.HasValue, hNumber] at hOld
        exact absurd hOld (Nat.lt_irrefl _)
      -- from here on schedules keep what they say of the id, and now they say what the call did
      have hIn : id ∈ f''.blocks.flatMap (·.values) ↔ (f.block? b).isSome = true := by
        rw [hGrows.entries id (Func.hasValue_of_value? hNow), mem_entries_schedule,
          Option.isSome_iff_ne_none, Ne, Func.block?_eq_none_iff, not_not, Func.HasBlock]
        simp only [hFresh, false_or, true_and]
      rw [hOrder.nodup_entries.count]
      simp only [hIn]
    · intro c hc hIn
      obtain ⟨v, hv, hOwner⟩ := hOrder.owned c hc id hIn
      obtain rfl := Option.some.inj (hStays.symm.trans hv)
      rw [← hOwner, Value.setAll_block]
  | note _ hValue => cases hValue

variable (name : String) (calls : List Call)

theorem length_blocks_built : (built name calls).blocks.length = calls.countP (·.addsBlock) := by
  rw [built_eq, length_blocks_after]
  exact Nat.zero_add _

theorem length_values_built : (built name calls).values.length = calls.countP (·.addsValue) := by
  rw [built_eq, length_values_after]
  exact Nat.zero_add _

/-- Whatever is called, the built function is in order, as long as ids do not wrap around. -/
theorem inOrder_built (hBlocks : calls.countP (·.addsBlock) < UInt32.size)
    (hValues : calls.countP (·.addsValue) < UInt32.size) : (built name calls).InOrder := by
  -- a function is in order as long as there is nothing in it
  have hStart : Func.InOrder { name } :=
    ⟨by simp [Numbered], by simp [Numbered], by simp, by simp⟩
  rw [← length_blocks_built name] at hBlocks
  rw [← length_values_built name] at hValues
  rw [built_eq] at hBlocks hValues ⊢
  exact after_inOrder calls hStart hBlocks hValues

/-- What each call hands out stands in the built function as the call and the later ones say. -/
theorem stands (hBlocks : calls.countP (·.addsBlock) < UInt32.size)
    (hValues : calls.countP (·.addsValue) < UInt32.size) {n : Nat} {c : Call}
    (hc : calls[n]? = some c) : Stands name calls n c := by
  -- the order holds at each stage, and from stage to stage nothing is taken back
  have hFewer : ∀ (k : Nat) (p : Call → Bool), (calls.take k).countP p ≤ calls.countP p :=
    fun k p => (List.take_sublist k calls).countP_le
  have hStage : ∀ k, (built name (calls.take k)).InOrder := fun k =>
    inOrder_built name _ (Nat.lt_of_le_of_lt (hFewer k _) hBlocks)
      (Nat.lt_of_le_of_lt (hFewer k _) hValues)
  have hRest := built_eq_after name calls (n + 1)
  have hAnswer : (answers name calls)[n]? = _ := getElem?_answers hc
  have hEffect := c.effect (built name (calls.take n))
  rw [← built_take_succ hc] at hEffect
  rw [Stands.eq_def]
  split
  · -- a block becomes what the later calls say of it
    obtain ⟨id, hId, hFound⟩ := hEffect.block_found (hStage (n + 1))
    refine ⟨id, hId ▸ hAnswer, ?_⟩
    rw [hRest, drop_answers]
    exact block?_after hFound _
  · -- a value stays in the arena, and so does what schedules say of it
    have hRoom : (built name (calls.take n)).values.length < UInt32.size := by
      rw [length_values_built]
      exact Nat.lt_of_le_of_lt (hFewer n _) hValues
    have hGrows : (built name (calls.take (n + 1))).Grows (built name calls) := by
      rw [hRest]
      apply after_grows
      rwa [← hRest, length_values_built]
    obtain ⟨id, hId, hStands⟩ :=
      hEffect.value_stands (hStage n) hRoom hGrows (inOrder_built name calls hBlocks hValues)
    exact ⟨id, hId ▸ hAnswer, hStands⟩
  · trivial

/-- **Whatever is called, the built function is in order.** What the calls hand
out are the ids of its values and blocks, none twice, and each stands until the
end; there is nothing in the function but what the calls say. The check accepts
it if all ids in it are small enough, and else complains of an id of nothing,
never of a mismatch, a repeated block, a foreign entry or a repeated one. -/
theorem built_in_order (hBlocks : calls.countP (·.addsBlock) < UInt32.size)
    (hValues : calls.countP (·.addsValue) < UInt32.size) :
    (built name calls).InOrder ∧
    (answers name calls).filterMap (·.valueId?) = (built name calls).values.map (·.id) ∧
    ((answers name calls).filterMap (·.valueId?)).Nodup ∧
    (answers name calls).filterMap (·.blockId?) = (built name calls).blocks.map (·.id) ∧
    ((answers name calls).filterMap (·.blockId?)).Nodup ∧
    (∀ n c, calls[n]? = some c → Stands name calls n c) ∧
    (built name calls).slots = calls.foldl Call.record .empty ∧
    (∀ e, (built name calls).check = .error e → e.Dangling) ∧
    ((built name calls).check = .ok () ↔ (built name calls).Closed) := by
  have hOrder := inOrder_built name calls hBlocks hValues
  -- the ids handed out are those of the values, so the numbering tells that they do not repeat
  have hValueIds : (answers name calls).filterMap (·.valueId?) =
      (built name calls).values.map (·.id) := by
    rw [answers_eq, built_eq, valueIds_after]
    rfl
  have hBlockIds : (answers name calls).filterMap (·.blockId?) =
      (built name calls).blocks.map (·.id) := by
    rw [answers_eq, built_eq, blockIds_after]
    rfl
  refine ⟨hOrder, hValueIds, ?_, hBlockIds, ?_, ?_, ?_, ?_, ?_⟩
  · exact hValueIds ▸ hOrder.valueIds.nodup
  · exact hBlockIds ▸ hOrder.blockIds.nodup
  · exact fun n c => stands name calls hBlocks hValues
  · rw [built_eq, slots_after]
  · exact fun e => hOrder.check_error_unknown
  · rw [Func.check_eq_ok_iff]
    exact hOrder.sound_iff

/-- A value is added before its block, and a copy of it after. What is said of
block 7 is dropped. -/
def early : List Call :=
  [.value 0 .initMem .mem [] [], .block .ret, .value 0 .copy .mem [0] [.line ⟨3⟩, .reg .a0],
    .edge 7 0, .control 7 9]

/-- Values may be added to a block before it exists, and then they are scheduled nowhere. -/
theorem built_in_order_early :
    early.countP (·.addsBlock) < UInt32.size ∧ early.countP (·.addsValue) < UInt32.size ∧
    (built "f" early).InOrder ∧ (built "f" early).blocks.flatMap (·.values) = [1] ∧
    (built "f" early).check = .ok () := by
  have hBlocks : early.countP (·.addsBlock) < UInt32.size := by decide
  have hValues : early.countP (·.addsValue) < UInt32.size := by decide
  obtain ⟨hOrder, -, -, -, -, -, -, -, hAccepted⟩ := built_in_order "f" early hBlocks hValues
  -- the built function is evaluated once, and all that is said of it is read off
  have hBuilt : built "f" early =
      { name := "f"
        values := [
          { id := 0, op := .initMem, ty := .mem, block := 0 },
          { id := 1, op := .copy, ty := .mem, args := [0], block := 0, line := ⟨3⟩,
            reg := some .a0 }]
        blocks := [{ id := 0, kind := .ret, values := [1] }] } := rfl
  refine ⟨hBlocks, hValues, hOrder, by rw [hBuilt]; rfl, hAccepted.mpr ?_⟩
  rw [hBuilt]
  constructor <;> simp [SlotTable.keys, SlotTable.empty]

end Builder

end RiscvLowering
