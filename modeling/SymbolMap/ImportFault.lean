import SymbolMap.Fault
import SymbolMap.Files.Disk

/-! Why an import is left out of a load. -/
namespace SymbolMap

inductive ImportFault
  | unopened (e : FileError)
  | invalid (e : FormatError)
deriving DecidableEq

def ImportFault.reason : ImportFault → String
  | unopened e => e.message
  | invalid e => e.message

end SymbolMap
