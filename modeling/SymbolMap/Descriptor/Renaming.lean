import SymbolMap.Descriptor.Basic
import SymbolMap.MemberName
import SymbolMap.Table

/-! Descriptors with the classes in them renamed by a mapping table. -/
namespace SymbolMap.Descriptor

/-- References to classes have slashes where the names in a table have dots. -/
def renameBy (find? : Register → Text → Option Entry) (name : Entry → Text) (t : Table)
    (className : Text) : Option Text := do
  let classes ← t.register? .class_
  let entry ← find? classes (MemberName.dotted className)
  return MemberName.slashed (name entry)

/-- Gives the classes that a table knows their obfuscated names. -/
def obfuscate (t : Table) (d : Descriptor) : Descriptor :=
  d.mapClasses (renameBy Register.findDeobf? (·.obf) t)

/-- Gives the classes that a table knows their deobfuscated names. -/
def deobfuscate (t : Table) (d : Descriptor) : Descriptor :=
  d.mapClasses (renameBy Register.findObf? (·.deobf) t)

def obfuscateText (t : Table) (text : Text) : Except InvalidDescriptor Text :=
  (read text).map fun d => (d.obfuscate t).render

def deobfuscateText (t : Table) (text : Text) : Except InvalidDescriptor Text :=
  (read text).map fun d => (d.deobfuscate t).render

end SymbolMap.Descriptor
