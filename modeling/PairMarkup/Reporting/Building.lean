import PairMarkup.Builder
import PairMarkup.Reporting.Basic

namespace PairMarkup.Reporting

/-- A step that reports nothing. -/
def settle {α : Type} : Except Halt α → Reporting α
  | .ok a => pure a
  | .error halt => fail halt.fault

variable (site : Site) (b : Builder)

def reportNote (note : Note) : Reporting Builder := do
  report (note.reported site.file site.fileIndex)
  return b.report site note

def reportNotes (notes : List Note) : Reporting Builder := notes.foldlM (reportNote site) b

def addComment (parent : PairId) (b : Builder) (comment : Comment) : Reporting Builder := do
  let b ← reportNotes site b comment.notes
  let (id, b) := b.add (site.commentPair comment)
  settle (b.append parent id)

def place (b : Builder) (parent child : PairId) (position : Position) : Reporting Builder :=
  match b.tree.append parent child with
  | .error (.childrenNotAllowed _ _ _) => do
    let b ← reportNote site b (b.blockNotExpected parent (b.tree.get child).span)
    let (orphan, b) := b.addOrphan site position
    settle (b.append orphan child)
  | _ => settle (b.place site parent child position)

def attach (parent child : PairId) (position : Position) : Reporting Builder := do
  let (parent, b) ← settle (b.redirect site parent child)
  place site b parent child position

def addPair (parent : PairId) (inGroup : Bool) (item : PairItem) : Reporting (PairId × Builder) := do
  let (id, b) := b.add (b.pairFor site parent inGroup item.head)
  let b ← attach site b parent id item.head.span.stop
  let b ← reportNotes site b item.notes
  let b := item.value.elim b (b.setValue site id)
  return (id, b.modify id fun pair => { pair with span := ⟨pair.span.start, item.stop⟩ })

open Builder in
def addItem (block : PairId) : Builder × LineState → Item → Reporting (Builder × LineState)
  | (b, state), .note note => return (← reportNote site b note, state)
  | (b, state), .comment comment => return (← addComment site (state.container block) b comment, state)
  | (b, state), .pair item => do
    let (id, b) ← addPair site b (state.container block) (!state.groups.isEmpty) item
    return (b, state.enter id item)
  | (b, state), item => settle (b.addItem site block state item)

def lineBlock (b : Builder) (depth : Nat) (lead : Span) : Reporting (PairId × Builder) :=
  let block := b.blockAt site depth
  if 0 < depth && !b.tree.acceptsChildren block then do
    let b ← reportNote site b (b.blockNotExpected block lead)
    return b.addOrphan site lead.stop
  else return (block, b)

def addLine (b : Builder) : Line → Reporting Builder
  | .comments depth comments =>
    comments.foldlM (fun b comment => addComment site (b.blockAt site depth) b comment) b
  | .rejected note => reportNote site b note
  | .content depth lead items => do
    let (block, b) ← lineBlock site b depth lead
    let (b, state) ← items.foldlM (addItem site block) (b, .initial block)
    return { b with blocks := b.blocks.take depth ++ [block] ++ state.current.toList }

def parse (set : ModuleSet) (file : String) (format : Format) (text : List Char) : Reporting ModuleSet := do
  let (root, set) := set.addModule file format
  let site : Site := ⟨root, format, file, (set.tree.get root).fileIndex⟩
  let b ← (Line.ofText text).foldlM (addLine site) ⟨set.tree, [root], []⟩
  return { set with tree := (b.finish site).tree }

end PairMarkup.Reporting
