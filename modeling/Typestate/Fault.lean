import Typestate.Text

set_option autoImplicit false

/-!
Broken contracts: situations a caller must not bring about. They end the analysis at once, unlike
the errors that are found in the program under analysis.
-/

namespace Typestate

inductive Fault where
  /-- A text that is no atom was to be printed. -/
  | invalidAtom (text : String)
  | sharesSizeMismatch
  | mergingDifferentRoots
  | noUnpackedToModify
  | unpackingWhileUnpacked (root : String)
  | packingWhilePacked
  | replacingWhileUnpacked
  | joiningDifferentUnpacked
  | tupleWithoutReceiver
  | methodWithoutCases (name : String)
  deriving DecidableEq, Inhabited, Repr

namespace Fault

def message : Fault → String
  | .invalidAtom text => "invalid atom " ++ Text.quoted text
  | .sharesSizeMismatch => "internal error: fraction function size mismatch"
  | .mergingDifferentRoots => "internal error: merging permissions with different roots"
  | .noUnpackedToModify => "internal error: no unpacked permission to make modifiable"
  | .unpackingWhileUnpacked root =>
      "internal error: unpacking to " ++ root ++ " while already unpacked"
  | .packingWhilePacked => "internal error: packing while packed"
  | .replacingWhileUnpacked =>
      "internal error: replacing frame state information while unpacked"
  | .joiningDifferentUnpacked =>
      "internal error: joining permissions with different unpacked permissions"
  | .tupleWithoutReceiver => "internal error: tuple without receiver"
  | .methodWithoutCases name => "internal error: method signature " ++ name ++ " without cases"

end Fault

end Typestate
