/-!
# White space, lines and fields

How text is cut up before it is read. A character is *blank* when it is white space in the sense
of the Unicode property of that name; `trim` removes blanks from both ends, `lines` cuts at every
newline, and `fields` keeps the maximal runs of characters that are not separators.

Everything here works on lists of characters, so that the readers built on it recurse on data.
-/

namespace BranchFusion.Text

/-- **White space**: the characters with the Unicode property `White_Space`. -/
def isBlank (c : Char) : Bool :=
  let n := c.toNat
  (9 ≤ n && n ≤ 13) || n == 0x20 || n == 0x85 || n == 0xA0 || n == 0x1680 ||
    (0x2000 ≤ n && n ≤ 0x200A) || n == 0x2028 || n == 0x2029 || n == 0x202F ||
    n == 0x205F || n == 0x3000

/-- Removes the blanks at the end. -/
def trimRight (cs : List Char) : List Char :=
  (cs.reverse.dropWhile isBlank).reverse

/-- Removes the blanks at both ends. -/
def trim (cs : List Char) : List Char :=
  trimRight (cs.dropWhile isBlank)

/-- The lines of a text: what stands between newlines. There is always at least one, and the empty
text has one empty line. -/
def lines : List Char → List (List Char)
  | [] => [[]]
  | c :: cs =>
    if c = '\n' then [] :: lines cs
    else match lines cs with
      | [] => [[c]]
      | l :: ls => (c :: l) :: ls

/-- The maximal runs of characters that are not separators, from left to right. -/
def fields (sep : Char → Bool) : List Char → List (List Char)
  | [] => []
  | [c] => if sep c then [] else [[c]]
  | c :: d :: cs =>
    if sep c then fields sep (d :: cs)
    else if sep d then [c] :: fields sep (d :: cs)
    else match fields sep (d :: cs) with
      | [] => [[c]]
      | w :: ws => (c :: w) :: ws

/-- Joins texts, with a separator between neighbours. -/
def join (sep : String) : List String → String
  | [] => ""
  | s :: rest => rest.foldl (fun text t => text ++ sep ++ t) s

theorem foldl_append_left (sep a b : String) (rest : List String) :
    rest.foldl (fun text t => text ++ sep ++ t) (a ++ b) =
      a ++ rest.foldl (fun text t => text ++ sep ++ t) b := by
  induction rest generalizing b with
  | nil => rfl
  | cons t rest ih =>
    have h : a ++ b ++ sep ++ t = a ++ (b ++ sep ++ t) := by simp only [String.append_assoc]
    rw [List.foldl_cons, List.foldl_cons, h, ih]

theorem join_singleton (sep s : String) : join sep [s] = s := rfl

theorem join_cons_cons (sep s t : String) (rest : List String) :
    join sep (s :: t :: rest) = s ++ sep ++ join sep (t :: rest) :=
  foldl_append_left sep (s ++ sep) t rest

/-- The text that is left when `word` is removed from the front, once. -/
def dropFront (word s : String) : String :=
  if word.toList.isPrefixOf s.toList then String.ofList (s.toList.drop word.length) else s

/-- Whether the text starts with `word`. -/
def startsWith (word s : String) : Bool :=
  word.toList.isPrefixOf s.toList

end BranchFusion.Text
