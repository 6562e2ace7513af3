import RiscvLowering.Proofs.Soundness
import RiscvLowering.Ssa.Builder

/-!
# Building — what a run of builder calls does

A builder is called in any order and with any ids, also with ids of blocks and
values that do not exist, or not yet. Blocks and values number themselves when
they are added; all other calls only say something about one of them:

* `Builder.Call` — the calls, with what they do and answer;
* `Builder.Effect` — what a call can do to a function, said once;
* `Block.told`, `Call.record` — what calls say of a block and of slots;
* `Func.Grows` — what no call takes back: values, and whether they are scheduled.

Main results:

* `Call.effect` — the effect of each call.
* `run_value` — a value that is added with all its fields is added with them
  set one by one.
* `valueIds_after`, `blockIds_after` — the ids handed out are those of the
  values and blocks, in the order of the calls.
* `block?_after`, `slots_after` — a block becomes what the later calls say of
  it, and so does the slot table.
* `after_grows` — a run of calls takes nothing back, as long as the numbers of
  values fit their 32 bits.
-/

namespace RiscvLowering

/-! ## Calls -/

/-- The value with more fields set, in turn. -/
def Value.setAll (v : Value) (setters : List Setter) : Value :=
  setters.foldl (fun v s => s.apply v) v

/-- The fields of a new value that have a default, to be set one by one. -/
def NewValue.setters (v : NewValue) : List Setter :=
  (v.reg.map .reg).toList ++ [.auxInt v.auxInt, .aux v.aux, .line v.line]

/-- No setter gives a value another id. -/
@[simp]
theorem Value.setAll_id (v : Value) (setters : List Setter) : (v.setAll setters).id = v.id := by
  induction setters generalizing v with
  | nil => rfl
  | cons s setters ih => exact (ih (s.apply v)).trans (by cases s <;> rfl)

@[simp]
theorem Value.setAll_block (v : Value) (setters : List Setter) :
    (v.setAll setters).block = v.block := by
  induction setters generalizing v with
  | nil => rfl
  | cons s setters ih => exact (ih (s.apply v)).trans (by cases s <;> rfl)

namespace Builder

/-- A call of the builder. A value is added with its fields set one by one,
before anything else can be called. -/
inductive Call where
  | block (kind : BlockKind)
  | value (block : BlockId) (op : Op) (ty : Ty) (args : List ValueId) (setters : List Setter)
  | edge (source target : BlockId)
  | control (block : BlockId) (value : ValueId)
  | blockLine (block : BlockId) (line : Line)
  | slot (value : ValueId) (slot : Slot)

/-- What a call hands out. -/
inductive Answer where
  | block (id : BlockId)
  | value (id : ValueId)
  | none
deriving DecidableEq

namespace Answer

def blockId? : Answer → Option BlockId
  | .block id => some id
  | _ => .none

def valueId? : Answer → Option ValueId
  | .value id => some id
  | _ => .none

end Answer

namespace Call

/-- What a call does to the function that is built, and what it answers. -/
def run : Call → Builder Answer
  | .block kind => return .block (← Builder.block kind)
  | .value b op ty args setters => do
    let id ← Builder.value { block := b, op, ty, args }
    setters.forM setLast
    return .value id
  | .edge source target => do Builder.edge source target; return .none
  | .control b id => do Builder.control b id; return .none
  | .blockLine b l => do Builder.blockLine b l; return .none
  | .slot id s => do Builder.slot id s; return .none

def addsBlock : Call → Bool
  | .block _ => true
  | _ => false

def addsValue : Call → Bool
  | .value .. => true
  | _ => false

/-- What is answered to a call on a function. -/
def answer (c : Call) (f : Func) : Answer := (c.run.run f).1

/-- The function after a call on it. -/
def apply (c : Call) (f : Func) : Func := (c.run.run f).2

end Call

/-- The answers to some calls. -/
def answers (name : String) (calls : List Call) : List Answer :=
  ((calls.mapM Call.run).run { name }).1

/-- The function that some calls build. -/
def built (name : String) (calls : List Call) : Func :=
  build name do discard (calls.mapM Call.run)

end Builder

/-! ## What a call does -/

section ModifyBlock

variable {id : BlockId} {change : Block → Block} {bs : List Block}

/-- What the change keeps of each block is kept of the list. -/
theorem map_modifyBlock {β : Type} {g : Block → β} (hKeeps : ∀ b, g (change b) = g b) :
    (modifyBlock id change bs).map g = bs.map g := by
  induction bs with
  | nil => rfl
  | cons b bs ih =>
    rw [modifyBlock]
    -- this is the block that is changed, or it is one behind it
    split
    · rw [List.map_cons, List.map_cons, hKeeps]
    · rw [List.map_cons, List.map_cons, ih]

/-- A block of the changed list was there before, or is the changed one of that id. -/
theorem mem_modifyBlock {b : Block} (h : b ∈ modifyBlock id change bs) :
    b ∈ bs ∨ ∃ b' ∈ bs, b'.id = id ∧ b = change b' := by
  induction bs with
  | nil => exact .inl h
  | cons b' bs ih =>
    -- the first block of the id is changed, and those behind it are left alone
    rw [modifyBlock] at h
    split at h
    · rename_i hId
      rcases List.mem_cons.mp h with rfl | hIn
      · exact .inr ⟨b', List.mem_cons_self, hId, rfl⟩
      · exact .inl (List.mem_cons_of_mem _ hIn)
    · rcases List.mem_cons.mp h with rfl | hIn
      · exact .inl List.mem_cons_self
      · rcases ih hIn with hOld | ⟨b'', hOld, hId, rfl⟩
        · exact .inl (List.mem_cons_of_mem _ hOld)
        · exact .inr ⟨b'', List.mem_cons_of_mem _ hOld, hId, rfl⟩

/-- The block that is changed is the one that is found. -/
theorem find?_modifyBlock (hKeeps : ∀ b, (change b).id = b.id) (key : BlockId) :
    (modifyBlock id change bs).find? (·.id = key) =
      (bs.find? (·.id = key)).map fun b => if b.id = id then change b else b := by
  induction bs with
  | nil => rfl
  | cons b bs ih =>
    by_cases hId : b.id = id
    · rw [modifyBlock, if_pos hId]
      by_cases hKey : b.id = key
      · rw [List.find?_cons_of_pos (by simpa [hKeeps] using hKey),
          List.find?_cons_of_pos (by simpa using hKey), Option.map_some, if_pos hId]
      · -- the key is not that of the changed block, so it is found as it was
        rw [List.find?_cons_of_neg (by simpa [hKeeps] using hKey),
          List.find?_cons_of_neg (by simpa using hKey)]
        cases hFind : bs.find? (·.id = key) with
        | none => rfl
        | some b' =>
          have hFound : b'.id = key := by simpa using List.find?_some hFind
          have hOther : b'.id ≠ id := fun hSame => hKey (hId.trans (hSame.symm.trans hFound))
          rw [Option.map_some, if_neg hOther]
    · rw [modifyBlock, if_neg hId]
      by_cases hKey : b.id = key
      · rw [List.find?_cons_of_pos (by simpa using hKey),
          List.find?_cons_of_pos (by simpa using hKey), Option.map_some, if_neg hId]
      · rw [List.find?_cons_of_neg (by simpa using hKey),
          List.find?_cons_of_neg (by simpa using hKey), ih]

end ModifyBlock

/-- The block with one more entry at the end of its schedule. -/
def Block.schedule (entry : ValueId) (b : Block) : Block := { b with values := b.values ++ [entry] }

/-- What is left of a block without what may be said of it later. -/
def Block.core (b : Block) : BlockId × List ValueId := (b.id, b.values)

theorem map_id_schedule (id : BlockId) (entry : ValueId) (bs : List Block) :
    (modifyBlock id (.schedule entry) bs).map (·.id) = bs.map (·.id) :=
  map_modifyBlock fun _ => rfl

/-- The new entry is all that is new in schedules, if there is such a block at all. -/
theorem mem_entries_schedule {id : BlockId} {entry x : ValueId} {bs : List Block} :
    x ∈ (modifyBlock id (.schedule entry) bs).flatMap (·.values) ↔
      x ∈ bs.flatMap (·.values) ∨ x = entry ∧ ∃ b ∈ bs, b.id = id := by
  induction bs with
  | nil => simp [modifyBlock]
  | cons b bs ih =>
    rw [modifyBlock]
    split
    · rename_i hId
      simp only [List.flatMap_cons, List.mem_append, Block.schedule, List.mem_singleton,
        List.exists_mem_cons_iff, hId, true_or, and_true]
      tauto
    · -- the entry goes to a block further behind, which changes nothing here
      rename_i hId
      simp only [List.flatMap_cons, List.mem_append, ih, List.exists_mem_cons_iff, hId, false_or,
        or_assoc]

/-- A function of the same values and schedules, of which more or other is said. -/
structure Func.Annotates (f f' : Func) : Prop where
  values : f'.values = f.values
  cores : f'.blocks.map (·.core) = f.blocks.map (·.core)

/-- An annotation keeps all that can be read off ids and schedules. -/
theorem Func.Annotates.map_core {f f' : Func} (h : f.Annotates f') {β : Type}
    (g : BlockId × List ValueId → β) :
    f'.blocks.map (fun b => g b.core) = f.blocks.map fun b => g b.core := by
  simpa only [List.map_map, Function.comp_def] using congrArg (List.map g) h.cores

theorem Func.Annotates.ids {f f' : Func} (h : f.Annotates f') :
    f'.blocks.map (·.id) = f.blocks.map (·.id) :=
  h.map_core fun c => c.1

/-- A change of a block that keeps its id and its schedule is an annotation. -/
theorem Func.annotates_modifyBlock {f : Func} {id : BlockId} {change : Block → Block}
    (hKeeps : ∀ b, (change b).core = b.core) :
    f.Annotates { f with blocks := modifyBlock id change f.blocks } :=
  ⟨rfl, map_modifyBlock hKeeps⟩

namespace Builder

/-- What a call answers and makes of a function. -/
inductive Effect (f : Func) : Call → Answer → Func → Prop
  | block (kind : BlockKind) :
    Effect f (.block kind) (.block (.ofNat f.blocks.length))
      { f with blocks := f.blocks ++ [{ id := .ofNat f.blocks.length, kind }] }
  | value (block : BlockId) (op : Op) (ty : Ty) (args : List ValueId) (setters : List Setter)
      (id : ValueId) (hId : id = .ofNat f.values.length) :
    Effect f (.value block op ty args setters) (.value id)
      { f with
        blocks := modifyBlock block (.schedule id) f.blocks
        values := f.values ++ [({ id, op, ty, args, block } : Value).setAll setters] }
  | note {c : Call} {f' : Func} (hBlock : c.addsBlock = false) (hValue : c.addsValue = false)
      (hNote : f.Annotates f') : Effect f c .none f'

/-- Changing the last of a list with something at its end changes just that. -/
theorem modify_last {α : Type} (xs : List α) (x : α) (g : α → α) :
    (xs ++ [x]).modify ((xs ++ [x]).length - 1) g = xs ++ [g x] := by
  rw [List.length_append, List.length_singleton, Nat.add_sub_cancel]
  induction xs with
  | nil => rfl
  | cons y xs ih => simp [ih]

/-- Setters act on the value that was added last, whatever came before it. -/
theorem run_setters (setters : List Setter) (f : Func) (vs : List Value) (v : Value) :
    (setters.forM setLast : Builder Unit) { f with values := vs ++ [v] } =
      ((), { f with values := vs ++ [v.setAll setters] }) := by
  induction setters generalizing v with
  | nil => rfl
  | cons s setters ih =>
    -- one setter changes the last value and leaves the ones before it
    have hFirst : setLast s { f with values := vs ++ [v] } =
        ((), { f with values := vs ++ [s.apply v] }) := by
      show ((), { f with values := (vs ++ [v]).modify ((vs ++ [v]).length - 1) s.apply }) = _
      rw [modify_last]
    show (setters.forM setLast : Builder Unit) (setLast s { f with values := vs ++ [v] }).2 = _
    rw [hFirst, ih]
    rfl

/-- A value takes the next number for its id, is scheduled in its block if there is one, and gets
its fields. -/
theorem Call.apply_value (block : BlockId) (op : Op) (ty : Ty) (args : List ValueId)
    (setters : List Setter) (f : Func) :
    (Call.value block op ty args setters).apply f =
      let id : ValueId := .ofNat f.values.length
      { f with
        blocks := modifyBlock block (.schedule id) f.blocks
        values := f.values ++ [({ id, op, ty, args, block } : Value).setAll setters] } := by
  -- the value is added bare first, and the setters act on it there
  have hSet := run_setters setters
    { f with blocks := modifyBlock block (.schedule (.ofNat f.values.length)) f.blocks } f.values
    { id := .ofNat f.values.length, op, ty, args, block }
  show ((setters.forM setLast : Builder Unit) _).2 = _
  exact congrArg Prod.snd hSet

/-- A value that is added with all its fields is added with them set one by one. -/
theorem run_value (v : NewValue) (f : Func) :
    (value v).run f =
      (.ofNat f.values.length, (Call.value v.block v.op v.ty v.args v.setters).apply f) := by
  rw [Call.apply_value]
  obtain ⟨block, op, ty, args, auxInt, aux, reg, line⟩ := v
  cases reg <;> rfl

/-- Each call has the effect that is stated for it: a block, a value, or an annotation. -/
theorem Call.effect (c : Call) (f : Func) : Effect f c (c.answer f) (c.apply f) := by
  cases c with
  | block kind => exact .block kind
  | value block op ty args setters =>
    rw [apply_value]
    exact .value block op ty args setters _ rfl
  -- what is said of a block touches neither its id nor its schedule
  | edge source target => exact .note rfl rfl (f.annotates_modifyBlock fun _ => rfl)
  | control block value => exact .note rfl rfl (f.annotates_modifyBlock fun _ => rfl)
  | blockLine block line => exact .note rfl rfl (f.annotates_modifyBlock fun _ => rfl)
  | slot value slot => exact .note rfl rfl ⟨rfl, rfl⟩

end Builder

/-! ## What is said of blocks and slots -/

open Builder in
/-- The block after a call with its answer: what the call says of a block by its id. -/
def Block.tell (b : Block) : Call × Answer → Block
  | (.value owner .., .value entry) => if b.id = owner then b.schedule entry else b
  | (.edge source target, _) =>
    if b.id = source then { b with succs := b.succs ++ [target] } else b
  | (.control decided value, _) => if b.id = decided then { b with control := some value } else b
  | (.blockLine marked line, _) => if b.id = marked then { b with line } else b
  | _ => b

open Builder in
/-- The block after some calls with their answers. -/
def Block.told (b : Block) (calls : List Call) (answers : List Answer) : Block :=
  (calls.zip answers).foldl tell b

namespace Builder

/-- The slots after a call. -/
def Call.record (slots : SlotTable) : Call → SlotTable
  | .slot id s => slots.insert id s
  | _ => slots

/-- A call does to a block what it says of it, and to all others nothing. -/
theorem Call.block?_apply {f : Func} {id : BlockId} {b : Block} (hb : f.block? id = some b)
    (c : Call) : (c.apply f).block? id = some (b.tell (c, c.answer f)) := by
  have hFound : f.blocks.find? (·.id = id) = some b := hb
  -- edges, controls, lines and schedules all change one block and keep its id
  have hChanged : ∀ (owner : BlockId) (change : Block → Block), (∀ b, (change b).id = b.id) →
      (modifyBlock owner change f.blocks).find? (·.id = id) =
        some (if b.id = owner then change b else b) := by
    intro owner change hKeeps
    rw [find?_modifyBlock hKeeps, hFound, Option.map_some]
  cases c with
  | block kind =>
    show (f.blocks ++ [({ id := .ofNat f.blocks.length, kind } : Block)]).find? (·.id = id) = _
    rw [List.find?_append, hFound]
    rfl
  | value owner op ty args setters =>
    rw [apply_value]
    exact hChanged owner (.schedule (.ofNat f.values.length)) fun _ => rfl
  | edge source target =>
    exact hChanged source (fun b => { b with succs := b.succs ++ [target] }) fun _ => rfl
  | control decided value =>
    exact hChanged decided (fun b => { b with control := some value }) fun _ => rfl
  | blockLine marked line => exact hChanged marked (fun b => { b with line }) fun _ => rfl
  | slot value slot => exact hb

/-- Only a call about a slot changes the table of slots. -/
theorem Call.slots_apply (f : Func) (c : Call) : (c.apply f).slots = c.record f.slots := by
  cases c with
  | value owner op ty args setters =>
    rw [apply_value]
    rfl
  | _ => rfl

end Builder

/-! ## What no call takes back -/

/-- The second function has all values that the first has, and it schedules none
of them anew. -/
structure Func.Grows (f f' : Func) : Prop where
  values : f.values <+: f'.values
  entries : ∀ id : ValueId, f.HasValue id →
    (id ∈ f'.blocks.flatMap (·.values) ↔ id ∈ f.blocks.flatMap (·.values))

namespace Func.Grows

variable {f f' f'' : Func}

theorem refl (f : Func) : f.Grows f :=
  ⟨List.prefix_refl _, fun _ _ => Iff.rfl⟩

theorem hasValue (h : f.Grows f') {id : ValueId} (hId : f.HasValue id) : f'.HasValue id :=
  Nat.lt_of_lt_of_le hId h.values.length_le

theorem trans (h : f.Grows f') (h' : f'.Grows f'') : f.Grows f'' :=
  ⟨h.values.trans h'.values, fun id hId =>
    (h'.entries id (h.hasValue hId)).trans (h.entries id hId)⟩

/-- A value stays at its id. -/
theorem value? (h : f.Grows f') {id : ValueId} {v : Value} (hv : f.value? id = some v) :
    f'.value? id = some v := by
  obtain ⟨rest, hRest⟩ := h.values
  rw [Func.value?, ← hRest, List.getElem?_append_left (hasValue_of_value? hv)]
  exact hv

end Func.Grows

theorem Func.Annotates.grows {f f' : Func} (h : f.Annotates f') : f.Grows f' := by
  have hEntries : f'.blocks.map (·.values) = f.blocks.map (·.values) :=
    h.map_core fun c => c.2
  refine ⟨h.values ▸ List.prefix_refl _, fun id _ => ?_⟩
  rw [List.flatMap_def, hEntries, List.flatMap_def]

namespace Builder

variable {f f' : Func} {c : Call} {a : Answer}

/-- No call takes back a value or its place in a schedule, as long as ids do not wrap around. -/
theorem Effect.grows (h : Effect f c a f') (hValues : f.values.length < UInt32.size) :
    f.Grows f' := by
  cases h with
  | block kind =>
    refine ⟨List.prefix_refl _, fun id _ => ?_⟩
    -- a new block schedules nothing
    simp
  | value block op ty args setters id hId =>
    refine ⟨List.prefix_append _ _, fun id hOld => ?_⟩
    rw [mem_entries_schedule]
    constructor
    · rintro (hIn | ⟨rfl, -⟩)
      · exact hIn
      · -- the new id is not one of the old values
        rw [Func.HasValue, hId, UInt32.toNat_ofNat_of_lt' hValues] at hOld
        exact absurd hOld (Nat.lt_irrefl _)
    · exact .inl
  | note _ _ hNote => exact hNote.grows

/-- One more block for a call that adds one, and the same number for any other. -/
theorem Effect.length_blocks (h : Effect f c a f') :
    f'.blocks.length = f.blocks.length + c.addsBlock.toNat := by
  cases h with
  | block kind => simp [Call.addsBlock]
  | value block op ty args setters id hId =>
    simpa [Call.addsBlock] using congrArg List.length (map_id_schedule block id f.blocks)
  | note hBlock _ hNote => simpa [hBlock] using congrArg List.length hNote.cores

theorem Effect.length_values (h : Effect f c a f') :
    f'.values.length = f.values.length + c.addsValue.toNat := by
  cases h with
  | block kind => rfl
  | value block op ty args setters id hId => simp [Call.addsValue]
  | note _ hValue hNote => simp [hValue, hNote.values]

/-- The id of an added value is the one that is handed out. -/
theorem Effect.valueIds (h : Effect f c a f') :
    f'.values.map (·.id) = f.values.map (·.id) ++ a.valueId?.toList := by
  cases h with
  | block kind => simp [Answer.valueId?]
  | value block op ty args setters id hId => simp [Answer.valueId?]
  | note _ _ hNote => simp [Answer.valueId?, hNote.values]

theorem Effect.blockIds (h : Effect f c a f') :
    f'.blocks.map (·.id) = f.blocks.map (·.id) ++ a.blockId?.toList := by
  cases h with
  | block kind => simp [Answer.blockId?]
  | value block op ty args setters id hId =>
    simpa [Answer.blockId?] using map_id_schedule block id f.blocks
  | note _ _ hNote => simpa [Answer.blockId?] using hNote.ids

/-! ## Runs of calls -/

/-- The function after some calls on it, one after the other. -/
def after (f : Func) (calls : List Call) : Func := calls.foldl (fun f c => c.apply f) f

/-- What is answered to some calls on a function. -/
def answersFrom (f : Func) : List Call → List Answer
  | [] => []
  | c :: calls => c.answer f :: answersFrom (c.apply f) calls

/-- A program of calls gives the answers of the calls one after the other, and the function they
leave. -/
theorem run_calls (f : Func) (calls : List Call) :
    (calls.mapM Call.run : Builder (List Answer)) f = (answersFrom f calls, after f calls) := by
  induction calls generalizing f with
  | nil => rfl
  | cons c calls ih =>
    rw [List.mapM_cons]
    -- the other calls begin with the function that the first leaves
    show ((c.answer f :: ((calls.mapM Call.run : Builder (List Answer)) (c.apply f)).1),
      ((calls.mapM Call.run : Builder (List Answer)) (c.apply f)).2) = _
    rw [ih]
    rfl

theorem answers_eq (name : String) (calls : List Call) :
    answers name calls = answersFrom { name } calls :=
  congrArg Prod.fst (run_calls _ calls)

theorem built_eq (name : String) (calls : List Call) : built name calls = after { name } calls :=
  congrArg Prod.snd (run_calls _ calls)

/-- What each call of a kind raises by one counts the calls of that kind. -/
theorem after_count (count : Func → Nat) {adds : Call → Bool}
    (hStep : ∀ {f f' c a}, Effect f c a f' → count f' = count f + (adds c).toNat)
    (f : Func) (calls : List Call) : count (after f calls) = count f + calls.countP adds := by
  -- over the calls, from whatever function they start
  induction calls generalizing f with
  | nil => rfl
  | cons c calls ih =>
    show count (after (c.apply f) calls) = _
    rw [ih, hStep (c.effect f), List.countP_cons]
    cases adds c
    · rfl
    · simp only [Bool.toNat_true, if_true]
      omega

/-- After a run there are as many more blocks as calls that add one. -/
theorem length_blocks_after (f : Func) (calls : List Call) :
    (after f calls).blocks.length = f.blocks.length + calls.countP (·.addsBlock) :=
  after_count (fun f => f.blocks.length) Effect.length_blocks f calls

theorem length_values_after (f : Func) (calls : List Call) :
    (after f calls).values.length = f.values.length + calls.countP (·.addsValue) :=
  after_count (fun f => f.values.length) Effect.length_values f calls

/-- What each call extends by what it hands out ends with all that is handed out. -/
theorem after_handed (ids : Func → List UInt32) {id? : Answer → Option UInt32}
    (hStep : ∀ {f f' c a}, Effect f c a f' → ids f' = ids f ++ (id? a).toList)
    (f : Func) (calls : List Call) :
    ids (after f calls) = ids f ++ (answersFrom f calls).filterMap id? := by
  induction calls generalizing f with
  | nil => exact (List.append_nil _).symm
  | cons c calls ih =>
    show ids (after (c.apply f) calls) = _
    rw [ih, hStep (c.effect f), answersFrom, List.filterMap_cons]
    cases id? (c.answer f) <;> simp

/-- The ids of the values are the handed out ones, in the order of the calls. -/
theorem valueIds_after (f : Func) (calls : List Call) :
    (after f calls).values.map (·.id) =
      f.values.map (·.id) ++ (answersFrom f calls).filterMap (·.valueId?) :=
  after_handed (fun f => f.values.map (·.id)) Effect.valueIds f calls

/-- The ids of the blocks are the handed out ones, in the order of the calls. -/
theorem blockIds_after (f : Func) (calls : List Call) :
    (after f calls).blocks.map (·.id) =
      f.blocks.map (·.id) ++ (answersFrom f calls).filterMap (·.blockId?) :=
  after_handed (fun f => f.blocks.map (·.id)) Effect.blockIds f calls

theorem getElem?_answersFrom (f : Func) (calls : List Call) (n : Nat) :
    (answersFrom f calls)[n]? = calls[n]?.map fun c => c.answer (after f (calls.take n)) := by
  induction calls generalizing f n with
  | nil => rfl
  | cons c calls ih =>
    cases n with
    | zero => rfl
    | succ n => exact ih (c.apply f) n

variable {name : String} {calls : List Call} {n : Nat}

/-- A call is answered in view of the calls before it. -/
theorem getElem?_answers (hc : calls[n]? = some c) :
    (answers name calls)[n]? = some (c.answer (built name (calls.take n))) := by
  rw [answers_eq, getElem?_answersFrom, hc, built_eq]
  rfl

/-- What is built is built by the first calls and, on that, by the others. -/
theorem built_eq_after (name : String) (calls : List Call) (n : Nat) :
    built name calls = after (built name (calls.take n)) (calls.drop n) := by
  rw [built_eq, built_eq, after, after, after, ← List.foldl_append, List.take_append_drop]

theorem built_take_succ (hc : calls[n]? = some c) :
    built name (calls.take (n + 1)) = c.apply (built name (calls.take n)) := by
  rw [List.take_add_one, hc, built_eq, built_eq, after, List.foldl_append]
  rfl

/-- The later answers are those of the later calls, on the function the earlier ones left. -/
theorem drop_answers (name : String) (calls : List Call) (n : Nat) :
    (answers name calls).drop n = answersFrom (built name (calls.take n)) (calls.drop n) := by
  rw [answers_eq, built_eq]
  -- the induction is about any function to begin with, not only the empty one
  generalize ({ name } : Func) = f
  induction calls generalizing f n with
  | nil => rw [answersFrom, List.drop_nil, List.drop_nil, answersFrom]
  | cons c calls ih =>
    cases n with
    | zero => rfl
    | succ n => exact ih n (c.apply f)

/-- A block becomes what the later calls say of it. -/
theorem block?_after {id : BlockId} {b : Block} (hb : f.block? id = some b) (calls : List Call) :
    (after f calls).block? id = some (b.told calls (answersFrom f calls)) := by
  induction calls generalizing f b with
  | nil => exact hb
  | cons c calls ih => exact ih (Call.block?_apply hb c)

/-- The table of slots is what the calls about slots make of it, in their order. -/
theorem slots_after (f : Func) (calls : List Call) :
    (after f calls).slots = calls.foldl Call.record f.slots := by
  induction calls generalizing f with
  | nil => rfl
  | cons c calls ih =>
    show (after (c.apply f) calls).slots = _
    rw [ih, c.slots_apply, List.foldl_cons]

/-- A run of calls takes nothing back. -/
theorem after_grows (calls : List Call) (hValues : (after f calls).values.length < UInt32.size) :
    f.Grows (after f calls) := by
  induction calls generalizing f with
  | nil => exact .refl f
  | cons c calls ih =>
    -- the bound is on the function in the end, which has the most values
    have hNow : f.values.length < UInt32.size := by
      rw [length_values_after] at hValues
      omega
    exact ((c.effect f).grows hNow).trans (ih hValues)

end Builder

end RiscvLowering
