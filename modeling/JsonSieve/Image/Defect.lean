import JsonSieve.Assembly.Op

/-!
# Defects of programs

What can be wrong with an encoded program, found when it is loaded or when it runs. A defect says
nothing about the document.
-/

namespace JsonSieve

inductive Defect where
  -- Instructions that cannot be read.
  | badOpcode (byte : UInt8)
  | badKind (byte : UInt8)
  | badPayload (payload : Int64)
  | truncated
  -- Programs that are not accepted.
  | noEnd
  | noProcedures
  | entryRange (proc : Nat) (entry : UInt32)
  | splitNames (split : Nat)
  | badOperand (operand : Operand)
  -- Instructions that cannot run.
  | pastEnd
  | noActivation
  | needsProcedure
  | needsListAndSlot
  | needsSetSlot
  | needsMatcher
  | notTarget (operand : Operand)
  | notSlot (operand : Operand)
  | notInteger (operand : Operand)
  | slotRange (slot : UInt32) (proc : UInt32)
  | missingNumber (i : UInt32)
  | missingProcedure (proc : UInt32)
  | nothingToPushBack
  | bitRange (bit : Int64)
  | tooManyBranches (branches : Nat)
  | noSplit
  | unknownCode (code : Int64)
  | ranIntoEnd
  /-- The text has ended and the program still waits for more of it. -/
  | stillWaiting
  deriving DecidableEq, Repr, Inhabited

def Defect.message : Defect → String
  | .badOpcode byte => s!"bad opcode {byte}"
  | .badKind byte => s!"bad operand kind {byte}"
  | .badPayload payload => s!"operand payload {payload.toInt} out of range"
  | .truncated => "truncated instruction"
  | .noEnd => "missing END sentinel"
  | .noProcedures => "empty procedure table"
  | .entryRange proc entry => s!"proc{proc} entry @{entry} out of range"
  | .splitNames split => s!"split list {split} names a missing procedure"
  | .badOperand operand => s!"bad operand {operand.text}"
  | .pastEnd => "pc past the end of the stream"
  | .noActivation => "no active procedure"
  | .needsProcedure => "CALL needs a procedure operand"
  | .needsListAndSlot => "split needs a list and a slot operand"
  | .needsSetSlot => "UNIQUE needs a slot operand"
  | .needsMatcher => "MATCH needs a dfa operand"
  | .notTarget operand => s!"branch to {operand.text}"
  | .notSlot operand => s!"{operand.text} is not a slot"
  | .notInteger operand => s!"{operand.text} is not an integer operand"
  | .slotRange slot proc => s!"slot {slot} out of range in proc{proc}"
  | .missingNumber i => s!"missing float {i}"
  | .missingProcedure proc => s!"call to missing proc {proc}"
  | .nothingToPushBack => "UNTOKEN with no token to push back"
  | .bitRange bit => s!"bit index {bit.toInt} out of range"
  | .tooManyBranches branches => s!"SPLITV over {branches} procedures"
  | .noSplit => "no split in progress"
  | .unknownCode code => s!"unknown return code {code.toInt}"
  | .ranIntoEnd => "executed END sentinel"
  | .stillWaiting => "program still waiting for input after close"

def Defect.messageAt (d : Defect) (pc : Nat) : String :=
  s!"malformed bytecode at {pc}: {d.message}"

end JsonSieve
