import SymbolMap.ImportFault

/-! What a load, a store or the command has to tell about its work. -/
namespace SymbolMap

inductive Level
  | trace | debug | info | warn
deriving DecidableEq

def Level.name : Level → String
  | trace => "TRACE"
  | debug => "DEBUG"
  | info => "INFO"
  | warn => "WARN"

inductive Event
  | loadedFlat (added : Nat)
  | loadedSided (added : Nat) (side : Text) (skipped : Nat)
  | loadedThreeWay (added : Nat)
  | skippedSide (kind : Kind) (obf side : Text)
  | loadedColumns (added skipped : Nat)
  | loadedSheet (added : Nat) (kind : Kind) (skipped : Nat)
  | repeatedImport (name : Text)
  | imported (count : Nat) (name : Text)
  | skippedImport (name : Text) (fault : ImportFault)
  | loadedOutline (added withDescriptor files : Nat)
  | ignoredAccess (count : Nat)
  | loadedMembers (added : Nat)
  | unrepresentable (kind : Kind) (deobf : Text)
  | unrepresentableClass (deobf : Text)
  | skippedOrphans (count : Nat) (owner : Text)
  | wroteOutline (count packages : Nat)
  | skippedPackages (count : Nat)
  | misplacedMember (kind : Kind) (deobf owner : Text)
  | renamed (count total : Nat) (kind : Kind)
  | loadedInput (grown : UInt64) (path : Path)
  | wroteOutput (count : Nat) (path : Path) (dialect : Option Text)
deriving DecidableEq

namespace Event

def level : Event → Level
  | skippedSide .. => .trace
  | wroteOutput .. => .info
  | skippedImport .. | unrepresentable .. | unrepresentableClass _ | skippedOrphans .. |
    skippedPackages _ | misplacedMember .. => .warn
  | _ => .debug

def message : Event → String
  | loadedFlat added => "Loaded " ++ toString added ++ " flat mappings"
  | loadedSided added side skipped =>
    "Loaded " ++ toString added ++ " sided mappings for side " ++ String.ofList side ++
      ", skipping " ++ toString skipped ++ " from other sides"
  | loadedThreeWay added => "Loaded " ++ toString added ++ " three-way flat mappings"
  | skippedSide kind obf side =>
    "Skipping " ++ kind.name ++ " " ++ String.ofList obf ++ " on side " ++ String.ofList side
  | loadedColumns added skipped =>
    "Loaded " ++ toString added ++ " srg mappings, skipping " ++ toString skipped ++
      " from other sides"
  | loadedSheet added kind skipped =>
    "Loaded " ++ toString added ++ " " ++ kind.name ++ " names from csv, skipping " ++
      toString skipped ++ " from other sides"
  | repeatedImport name => "Skipping repeated import of " ++ String.ofList name
  | imported count name => "Imported " ++ toString count ++ " mappings from " ++ String.ofList name
  | skippedImport name fault => "Skipping import " ++ String.ofList name ++ ": " ++ fault.reason
  | loadedOutline added withDescriptor files =>
    "Loaded " ++ toString added ++ " onf mappings (" ++ toString withDescriptor ++
      " with descriptors) from " ++ toString files ++ " files"
  | ignoredAccess count => "Ignoring " ++ toString count ++ " access transformations"
  | loadedMembers added => "Loaded " ++ toString added ++ " enigma mappings"
  | unrepresentable kind deobf =>
    "Skipping unrepresentable " ++ kind.name ++ " " ++ String.ofList deobf
  | unrepresentableClass deobf => "Skipping unrepresentable class " ++ String.ofList deobf
  | skippedOrphans count owner =>
    "Skipping " ++ toString count ++ " members of unmapped class " ++ String.ofList owner
  | wroteOutline count packages =>
    "Wrote " ++ toString count ++ " onf mappings in " ++ toString packages ++ " packages"
  | skippedPackages count =>
    "Skipping " ++ toString count ++ " packages, which enigma can't represent"
  | misplacedMember kind deobf owner =>
    "Skipping " ++ kind.name ++ " " ++ String.ofList deobf ++ ", which doesn't belong to " ++
      String.ofList owner
  | renamed count total kind =>
    "Found MCP names for " ++ toString count ++ " of " ++ toString total ++ " " ++ kind.name ++
      " names"
  | loadedInput grown path => "Loaded " ++ toString grown ++ " mappings from " ++ String.ofList path.text
  | wroteOutput count path dialect =>
    "Wrote " ++ toString count ++ " mappings to " ++ String.ofList path.text ++
      (dialect.elim "" fun name => " as " ++ String.ofList name)

/-- The line of the log: its level and its message. -/
def logLine (e : Event) : String := e.level.name ++ " " ++ e.message

end Event
end SymbolMap
