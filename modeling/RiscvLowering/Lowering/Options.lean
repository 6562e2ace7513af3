import RiscvLowering.Json.Record
import RiscvLowering.Json.Tree

/-!
# Options of lowering

Options come from a document, too, in which each of them may be left out.
-/

namespace RiscvLowering

open Json

/-- What lowering may be told. -/
structure Options where
  /-- Whether an address has to be based on the register that its symbol asks for. -/
  checkBaseReg : Bool := true
  /-- Whether a lowering that is not implemented is an error. -/
  failOnGap : Bool := false
deriving DecidableEq

namespace Options

/-- The options, field by field. -/
structure Draft where
  checkBaseReg : Option Bool := none
  failOnGap : Option Bool := none

def record : Record Draft Options where
  fields := [
    .kept "check_base_reg" (·.checkBaseReg) (fun d x => { d with checkBaseReg := some x })
      readBool,
    .kept "fail_on_gap" (·.failOnGap) (fun d x => { d with failOnGap := some x }) readBool]
  blank := {}
  complete d := .ok {
    checkBaseReg := d.checkBaseReg.getD ({} : Options).checkBaseReg
    failOnGap := d.failOnGap.getD ({} : Options).failOnGap }

def ofText (text : String) : Except Fault Options := readAll record.read text

def toJson (o : Options) : Json :=
  .object [("check_base_reg", .bool o.checkBaseReg), ("fail_on_gap", .bool o.failOnGap)]

end Options

end RiscvLowering
