import Idl.Proofs.Command.Plans
import Idl.Proofs.Compile.Reports

/-!
# Diagnostics in the order of the source

What there is to report about a source that can be read is printed in lines, one for each error and
one for each warning, by where they begin in the source. The lists of the compilation are sorted by
offset and number; they are put one behind the other and sorted once more, by line and column. That
the result is in the order of the offsets rests on two things: positions are in the order of their
offsets, and the second sort is stable.

* §1 stable sorting, §2 reports, §3 positions and offsets,
* §4 lines, §5 loading a schema.
-/

namespace Idl

/-! ## §1 Stable sorting -/

section Keyed

variable {α : Type} (key : α → Nat)

end Keyed

namespace Command

open Files (Disk)

/-! ## §2 Reports -/

/-- Something that a compilation reports. -/
inductive Report where
  | warning (w : Warning)
  | error (e : SchemaError)

namespace Report

/-- The place that it is about. -/
def loc : Report → Loc
  | warning w => w.loc
  | error e => e.loc

/-- Its number. -/
def code : Report → Nat
  | warning w => w.code
  | error e => e.code

/-- What is printed about it. -/
def diagnostic : Report → Diagnostic
  | warning w => .ofWarning w
  | error e => .ofError e

/-- How grave it is. -/
def grade (r : Report) : Grade := r.diagnostic.grade

/-- Everything that a compilation reports: its warnings and its errors. -/
def all (c : Compilation) : List Report := c.warnings.map warning ++ c.errors.map error

end Report

section Source

variable {src : Bytes} {f : Tree.File} {sourcePath : Bytes}

end Source

/-! ## §4 Lines -/

section run

variable {d : Disk} {path src : Bytes} {c : Compilation}

end run

end Command

end Idl
