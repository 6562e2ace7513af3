import RiscvLowering.Ssa.Func

/-!
# Referential integrity

A function is sound when every id in it leads somewhere and every schedule entry is the only one of
its value, in the block that the value belongs to. `Func.faults` lists what is wrong in a fixed
order: values by index, repeated block ids, then each block's schedule, control and successors, and
last the slots. `Func.check` reports the first.
-/

namespace RiscvLowering

/-- Where an id that leads nowhere was found. -/
inductive Referrer where
  | value (id : ValueId)
  | block (id : BlockId)
  | controlOf (block : BlockId)
  | slots
deriving DecidableEq

def Referrer.text : Referrer → String
  | value id => id.name
  | block id => id.name
  | controlOf b => "control of " ++ b.name
  | slots => "slot table"

/-- A breach of referential integrity. -/
inductive IntegrityFault where
  /-- A value's id is not its arena index. -/
  | idMismatch (index : Nat) (id : ValueId)
  /-- Two blocks have one id. -/
  | duplicateBlock (id : BlockId)
  | unknownValue (referrer : Referrer) (id : ValueId)
  | unknownBlock (referrer : Referrer) (id : BlockId)
  /-- A block schedules a value that belongs to another block. -/
  | membership (value : ValueId) (listed owner : BlockId)
  | scheduledTwice (value : ValueId)
deriving DecidableEq

/-- What is said of a breach. -/
def IntegrityFault.message : IntegrityFault → String
  | idMismatch index id => "value at arena index " ++ index.repr ++ " has id " ++ id.name
  | duplicateBlock id => "duplicate block id " ++ id.name
  | unknownValue referrer id => referrer.text ++ " refers to unknown value " ++ id.name
  | unknownBlock referrer id => referrer.text ++ " refers to unknown block " ++ id.name
  | membership value listed owner =>
    value.name ++ " is scheduled in " ++ listed.name ++ " but records " ++ owner.name ++
      " as its block"
  | scheduledTwice value => value.name ++ " is scheduled more than once"

/-- The members of a list that occur before their place, in `seen` or in the list itself. -/
def repeats (seen : List BlockId) : List BlockId → List BlockId
  | [] => []
  | x :: xs => (if x ∈ seen then [x] else []) ++ repeats (x :: seen) xs

namespace Func

/-- The references to values that lead nowhere, among those that a referrer holds. -/
def danglingValues (f : Func) (referrer : Referrer) (ids : List ValueId) : List IntegrityFault :=
  (ids.filter fun id => (f.value? id).isNone).map (.unknownValue referrer)

/-- What is wrong with the value at an index: its id, then its arguments. -/
def valueFaults (f : Func) (v : Value) (index : Nat) : List IntegrityFault :=
  (if v.id.toNat = index then [] else [.idMismatch index v.id]) ++
    f.danglingValues (.value v.id) v.args

/-- What is wrong with one schedule entry, after the entries in `seen`. -/
def entryFaults (f : Func) (b : Block) (seen : List ValueId) (id : ValueId) :
    List IntegrityFault :=
  match f.value? id with
  | none => [.unknownValue (.block b.id) id]
  | some v =>
    if v.block ≠ b.id then [.membership id b.id v.block]
    else if id ∈ seen then [.scheduledTwice id]
    else []

/-- What is wrong with a schedule, entry by entry. -/
def scheduleFaults (f : Func) (b : Block) (seen : List ValueId) :
    List ValueId → List IntegrityFault
  | [] => []
  | id :: ids => f.entryFaults b seen id ++ f.scheduleFaults b (id :: seen) ids

/-- The successors of a block that lead nowhere. -/
def danglingSuccs (f : Func) (b : Block) : List IntegrityFault :=
  (b.succs.filter fun id => (f.block? id).isNone).map (.unknownBlock (.block b.id))

/-- What is wrong with the blocks of a layout, when the values in `seen` are scheduled before. -/
def layoutFaults (f : Func) (seen : List ValueId) : List Block → List IntegrityFault
  | [] => []
  | b :: bs =>
    f.scheduleFaults b seen b.values ++
      f.danglingValues (.controlOf b.id) b.control.toList ++
      f.danglingSuccs b ++
      f.layoutFaults (b.values.reverse ++ seen) bs

/-- Everything that is wrong with a function, in the order in which it is reported. -/
def faults (f : Func) : List IntegrityFault :=
  (f.values.zipIdx.flatMap fun (v, i) => f.valueFaults v i) ++
    (repeats [] (f.blocks.map (·.id))).map .duplicateBlock ++
    f.layoutFaults [] f.blocks ++
    f.danglingValues .slots f.slots.keys

/-- Accepts a function with nothing wrong, and reports the first fault of any other. -/
def check (f : Func) : Except IntegrityFault Unit :=
  match f.faults with
  | [] => .ok ()
  | e :: _ => .error e

end Func

end RiscvLowering
