/-! Texts, and the ways to take one apart at its first or its last separator. -/
namespace SymbolMap

/-- A text is the list of its characters, so that every rule about texts is a recursion on one. -/
abbrev Text := List Char

/-- What decides whether a text is in a list of texts. -/
instance : LawfulBEq Text := inferInstance

namespace Text

/-- What stands before and after the first `sep`. -/
def cut (sep : Char) (t : Text) : Option (Text × Text) :=
  match t.dropWhile (· != sep) with
  | [] => none
  | _ :: after => some (t.takeWhile (· != sep), after)

theorem length_of_cut {sep : Char} {t before after : Text}
    (h : cut sep t = some (before, after)) : after.length < t.length := by
  unfold cut at h
  split at h
  · simp at h
  · next c rest hd =>
    have hl := (List.dropWhile_suffix (l := t) (· != sep)).length_le
    simp only [Option.some.injEq, Prod.mk.injEq] at h
    rw [hd, List.length_cons, h.2] at hl
    omega

/-- The text up to its last character that satisfies `p`, that one included, and the rest. -/
def breakLast (p : Char → Bool) (t : Text) : Text × Text :=
  ((t.reverse.dropWhile fun c => !p c).reverse, (t.reverse.takeWhile fun c => !p c).reverse)

theorem breakLast_append (p : Char → Bool) (t : Text) :
    (breakLast p t).1 ++ (breakLast p t).2 = t := by
  rw [breakLast, ← List.reverse_append, List.takeWhile_append_dropWhile, List.reverse_reverse]

/-- What stands before and after the last character that satisfies `p`. -/
def cutLast (p : Char → Bool) (t : Text) : Option (Text × Text) :=
  match breakLast p t with
  | ([], _) => none
  | (upTo, rest) => some (upTo.dropLast, rest)

/-- The pieces with `sep` between neighbours. -/
def join (sep : Char) (pieces : List Text) : Text :=
  List.intercalate [sep] pieces

def replaceChar (old new : Char) (t : Text) : Text :=
  t.map fun c => if c = old then new else c

/-- Reads on after `skip` characters, putting `new` for each `old` that starts where no earlier one reaches. -/
def replaceFrom (old new : Text) (skip : Nat) : Text → Text
  | [] => []
  | c :: t =>
    match skip with
    | n + 1 => replaceFrom old new n t
    | 0 =>
      if old.isPrefixOf (c :: t) then new ++ replaceFrom old new (old.length - 1) t
      else c :: replaceFrom old new 0 t

/-- Puts `new` for every `old`, from the left and without overlaps; `old` is not empty. -/
def replaceAll (old new t : Text) : Text :=
  replaceFrom old new 0 t

/-- The number of bytes that the text takes in UTF-8. -/
def byteSize (t : Text) : Nat :=
  t.foldl (fun n c => n + c.utf8Size) 0

def startsWith (t start : Text) : Bool :=
  start.isPrefixOf t

end Text
end SymbolMap
