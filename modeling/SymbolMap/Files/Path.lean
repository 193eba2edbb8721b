import SymbolMap.Text.Basic

/-! Paths to files: names with slashes between them. -/
namespace SymbolMap

structure Path where
  text : Text
deriving DecidableEq

namespace Path

/-- Where a path starts: at the root, at a leading dot, or at its first name. -/
inductive Start
  | root | dot | name
deriving DecidableEq

/-- The start of a path and the segments after it. -/
def split (p : Path) : Start × List Text :=
  match p.text with
  | '/' :: rest => (.root, rest.splitOn '/')
  | text =>
    match text.splitOn '/' with
    | ['.'] :: segments => (.dot, segments)
    | segments => (.name, segments)

/-- Empty segments and dots lead nowhere. -/
def isIdle (segment : Text) : Bool := segment = [] || segment = ['.']

/-- Two paths are the same to an importer if they agree on their start and on the segments that count. -/
def key (p : Path) : Start × List Text :=
  (p.split.1, p.split.2.filter (!isIdle ·))

def trimIdle (segments : List Text) : List Text :=
  (segments.reverse.dropWhile isIdle).reverse

def ofSegments (start : Start) (segments : List Text) : Path :=
  match start with
  | .root => ⟨'/' :: Text.join '/' segments⟩
  | .dot => ⟨Text.join '/' (['.'] :: segments)⟩
  | .name => ⟨Text.join '/' segments⟩

/-- The path without its last segment that counts; the root and the empty path have no parent. -/
def parent? (p : Path) : Option Path :=
  match p.split with
  | (start, segments) =>
    match (trimIdle segments).reverse, start with
    | _ :: rest, start => some (ofSegments start (trimIdle rest.reverse))
    | [], .dot => some ⟨[]⟩
    | [], _ => none

/-- The last segment that counts, unless it leads up. -/
def fileName? (p : Path) : Option Text :=
  match (trimIdle p.split.2).getLast? with
  | some ['.', '.'] => none
  | last => last

/-- A path inside another; one that starts at the root stays as it is. -/
def join (base : Path) (name : Text) : Path :=
  match base.text.getLast?, name with
  | _, '/' :: _ => ⟨name⟩
  | none, name => ⟨name⟩
  | some '/', name => ⟨base.text ++ name⟩
  | some _, name => ⟨base.text ++ '/' :: name⟩

def resolve (base : Option Path) (name : Text) : Path :=
  match base with
  | some base => base.join name
  | none => ⟨name⟩

end Path
end SymbolMap
