import SdkTools.Registry.Datablocks

/-!
# The table-building loop

What the loop reads and stores is decided by the records that the allocated
sizes lead to, one after another, from the end of the datablock header.
-/

namespace SdkTools.Registry

set_option autoImplicit false

/-- From the record at `offset`, with `remaining` bytes left, the sizes of
records that pass the checks lead to another place. -/
inductive Leads (m : Buffer) : Nat → Nat → Nat → Nat → Prop where
  | here (offset remaining : Nat) : Leads m offset remaining offset remaining
  | on {offset remaining offset' remaining' : Nat} : remaining ≠ 0 →
      passes m offset remaining = true →
      Leads m ((offset + dwordAt m offset) % 2 ^ 32) (remaining - dwordAt m offset)
        offset' remaining' →
      Leads m offset remaining offset' remaining'

/-- The fixed fields of a record and its allocated bytes lie in the block. -/
def RecordInside (m : Buffer) (blockSize offset : Nat) : Prop :=
  offset + 20 ≤ blockSize ∧ offset + dwordAt m offset ≤ blockSize

/-- The record at an offset can be checked inside of the block, and if it passes
and has an index, it lies in the block. -/
def RecordFits (m : Buffer) (blockSize offset remaining : Nat) : Prop :=
  offset + 8 ≤ blockSize ∧
    (passes m offset remaining = true → hasIndex m offset = true → RecordInside m blockSize offset)

/-- Every record that the loop comes to fits into the block. -/
def RecordsFit (m : Buffer) (blockSize offset remaining : Nat) : Prop :=
  ∀ offset' remaining', Leads m offset remaining offset' remaining' → remaining' ≠ 0 →
    RecordFits m blockSize offset' remaining'

end SdkTools.Registry
