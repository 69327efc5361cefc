import PairMarkup.Line.Basic

namespace PairMarkup.Line

open Glyph

variable (stop : Position)

def isBlockEnd : List Char → Bool
  | a :: b :: c :: _ => a == '"' && b == '"' && c == '"'
  | _ => false

def atBlockEnd (gs : List Glyph) : Bool := isBlockEnd (raw 3 gs)

/-- The comment that begins here. With single quotes it goes up to the end of
    the line, with double quotes up to three more of them. -/
def readComment (gs : List Glyph) : Comment × List Glyph :=
  let body := gs.drop 3
  let isBlock := gs.head?.any (·.char == '"')
  let (taken, after) := breakAt (if isBlock then atBlockEnd else atLineEnd) body
  let rest := if isBlock then after.drop 3 else after
  let text := String.ofList (Text.trim (chars taken))
  (⟨text, ⟨here stop gs, here stop rest⟩, !isBlock || !after.isEmpty⟩, rest)

theorem readComment_suffix (gs : List Glyph) : (readComment stop gs).2 <:+ gs.drop 3 := by
  simp only [readComment]
  split
  · exact (List.drop_suffix _ _).trans (breakAt_suffix _ _)
  · exact breakAt_suffix _ _

theorem length_readComment_lt {gs : List Glyph} (hcomment : atComment gs = true) :
    (readComment stop gs).2.length < gs.length := by
  have hle := (readComment_suffix stop gs).length_le
  cases gs with
  | nil => simp at hcomment
  | cons g gs =>
    simp only [List.length_drop, List.length_cons] at hle ⊢
    omega

def readComments (stop : Position) (gs : List Glyph) : List Comment × List Glyph :=
  if hcomment : atComment gs = true then
    have := length_readComment_lt stop hcomment
    have := (dropBlanks_suffix (readComment stop gs).2).length_le
    let first := readComment stop gs
    let more := readComments stop (dropBlanks first.2)
    (first.1 :: more.1, more.2)
  else ([], gs)
termination_by gs.length
decreasing_by omega

theorem readComments_suffix (gs : List Glyph) : (readComments stop gs).2 <:+ gs := by
  fun_induction readComments stop gs with
  | case1 gs hcomment _ _ first more ih =>
    exact ih.trans ((dropBlanks_suffix _).trans ((readComment_suffix stop gs).trans (List.drop_suffix _ _)))
  | case2 gs hcomment => exact List.suffix_refl _

end PairMarkup.Line
