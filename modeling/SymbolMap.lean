import SymbolMap.Dialect.Storing
import SymbolMap.Main
import SymbolMap.Proofs.Columns.RoundTrip
import SymbolMap.Proofs.Command.Sides
import SymbolMap.Proofs.Flat
import SymbolMap.Proofs.MemberLines.RoundTrip
import SymbolMap.Proofs.Outline.LeftOut
import SymbolMap.Proofs.Outline.RoundTrip
import SymbolMap.Proofs.Outline.Visits
import SymbolMap.Proofs.Table.Lookup
import SymbolMap.Proofs.ThreeWay
import SymbolMap.Register.Sound
import SymbolMap.Proofs.Columns.ToFlat
import SymbolMap.Proofs.Sheet.Quoting
import SymbolMap.Proofs.Sheet.RoundTrip
import SymbolMap.Proofs.ThreeWay.Reloading
import SymbolMap.Proofs.Outline.Names
import SymbolMap.Proofs.Outline.ToThreeWay
import SymbolMap.Proofs.Outline.Opening
import SymbolMap.Proofs.Outline.Independence
import SymbolMap.Proofs.Descriptor.Resolving
import SymbolMap.Proofs.Sheet.Reloading
import SymbolMap.Proofs.Dialect.Parts
import SymbolMap.Proofs.Dialect.FirstFault
import SymbolMap.Proofs.Dialect.Extending
import SymbolMap.Proofs.Batch.Order
import SymbolMap.Proofs.Outline.Order
import SymbolMap.Proofs.Dialect.Comments
import SymbolMap.Proofs.Files.Disk
import SymbolMap.Proofs.Command.Files
import SymbolMap.Proofs.Command.Counts
import SymbolMap.Proofs.Sheet.Position
import SymbolMap.Proofs.Descriptor.Language
import SymbolMap.Proofs.Descriptor.RoundTrip
import SymbolMap.Proofs.Table.Copying
import SymbolMap.Proofs.Table.Overwriting
import SymbolMap.Proofs.Outline.Sorts
import SymbolMap.Proofs.Outline.Above
import SymbolMap.Proofs.Outline.Asked
import SymbolMap.Proofs.MemberLines.References
import SymbolMap.Proofs.Dialect.Spec
