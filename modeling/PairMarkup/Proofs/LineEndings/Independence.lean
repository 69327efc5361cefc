import PairMarkup.Proofs.PlaceMap.Building
import PairMarkup.Proofs.Reporting

namespace PairMarkup

open List Position Text Builder Glyph

/-- The place by line and column alone. -/
def Position.blur (p : Position) : Position := { p with offset := 0 }

def Span.blur (s : Span) : Span := ⟨s.start.blur, s.stop.blur⟩

def Pair.blur (p : Pair) : Pair := { p with span := p.span.blur, nameSpan := p.nameSpan.blur }

def PairTree.blur (t : PairTree) : PairTree := ⟨t.pairs.map Pair.blur⟩

def Diagnostic.blur (d : Diagnostic) : Diagnostic where
  code := d.code
  message := if d.code = .unexpectedCharacter then Text.plainBreaks d.message else d.message
  file := d.file
  fileIndex := d.fileIndex
  span := d.span.blur
  origin := d.origin

/-- The text with a carriage return before each line feed. -/
def Text.withReturns (text : List Char) : List Char := text.flatMap fun c => if c = '\n' then ['\r', '\n'] else [c]

@[simp] theorem Text.withReturns_cons (c : Char) (text : List Char) :
    withReturns (c :: text) = (if c = '\n' then ['\r', '\n'] else [c]) ++ withReturns text :=
  flatMap_cons ..

/-- Places on one line and column lead to places on one line and column. -/
theorem Position.after_blur_eq {p q : Position} (h : p.blur = q.blur) (c : Char) :
    (p.after c).blur = (q.after c).blur := by
  obtain ⟨line, column, offset⟩ := p
  obtain ⟨line', column', offset'⟩ := q
  simp only [blur, mk.injEq, and_true] at h
  obtain ⟨rfl, rfl⟩ := h
  unfold after
  split
  · rfl
  · split <;> rfl

theorem Position.after_return_blur (p : Position) : (p.after '\r').blur = p.blur := rfl

namespace Glyph

variable {text : List Char} {p q : Position}

theorem place_withReturns (hreturn : '\r' ∉ text) (hplace : p.blur = q.blur) :
    (place p (withReturns text)).map blurring.glyph = (place q text).map blurring.glyph := by
  induction text generalizing p q with
  | nil => rfl
  | cons c text ih =>
    have hc := ne_of_not_mem_cons hreturn
    have htext := not_mem_of_not_mem_cons hreturn
    rw [place_cons_of_ne hc.symm, withReturns_cons]
    split
    · rename_i hbreak
      subst hbreak
      have hnext : ((p.after '\r').after '\n').blur = (q.after '\n').blur :=
        after_blur_eq ((after_return_blur p).trans hplace) '\n'
      have hhere : blurring.position p = blurring.position q := hplace
      simp only [cons_append, nil_append, place, map_cons, ih htext hnext]
      exact congrArg (· :: _) (Glyph.ext rfl rfl hhere)
    · have hnext := after_blur_eq hplace c
      rw [singleton_append, place_cons_of_ne hc.symm]
      have hhere : blurring.position p = blurring.position q := hplace
      simp only [map_cons, ih htext hnext]
      exact congrArg (· :: _) (Glyph.ext rfl rfl hhere)

theorem placeAfter_withReturns (hplace : p.blur = q.blur) :
    (placeAfter p (withReturns text)).blur = (placeAfter q text).blur := by
  induction text generalizing p q with
  | nil => exact hplace
  | cons c text ih =>
    simp only [placeAfter, withReturns_cons, foldl_append, foldl_cons] at ih ⊢
    refine ih ?_
    split
    · rename_i hbreak
      subst hbreak
      exact after_blur_eq ((after_return_blur p).trans hplace) '\n'
    · exact after_blur_eq hplace c

end Glyph

theorem Line.ofText_withReturns {text : List Char} (hreturn : '\r' ∉ text) :
    (ofText (withReturns text)).map blurring.line = (ofText text).map blurring.line := by
  have hstop : blurring.position (placeAfter .start (withReturns text)) =
      blurring.position (placeAfter .start text) := placeAfter_withReturns rfl
  rw [ofText_eq, ofText_eq, ← readLines_moved fun _ => rfl, ← readLines_moved fun _ => rfl,
    place_withReturns hreturn rfl, hstop]

def ModuleSet.blur (set : ModuleSet) : ModuleSet := { set with tree := set.tree.blur }

def Collection.blur (c : Collection) : Collection := { c with entries := c.entries.map Diagnostic.blur }

def Stopped.blur (stopped : Stopped) : Stopped := { stopped with collected := stopped.collected.map Diagnostic.blur }

def Session.blur (s : Session) : Session := ⟨s.set.blur, s.collection.blur⟩

def Logged.blur (work : Logged ModuleSet) : Logged ModuleSet :=
  ⟨work.log.map Diagnostic.blur, work.result.map ModuleSet.blur⟩

/-- Adds the module that some lines make. -/
def ModuleSet.ofLines (set : ModuleSet) (file : String) (format : Format) (lines : List Line) : Logged ModuleSet :=
  let (root, set) := set.addModule file format
  let site : Site := ⟨root, format, file, (set.tree.get root).fileIndex⟩
  match lines.foldlM (Builder.addLine site) ⟨set.tree, [root], []⟩ with
  | .ok b => ⟨b.log, .ok { set with tree := (b.finish site).tree }⟩
  | .error halt => ⟨halt.log, .error halt.fault⟩

section

variable (set : ModuleSet) (file : String) (format : Format)

theorem ModuleSet.parse_eq_ofLines (text : List Char) :
    set.parse file format text = set.ofLines file format (Line.ofText text) :=
  rfl

theorem ModuleSet.addModule_blur : set.blur.addModule file format = (set.addModule file format).map id blur := by
  let pair := { Pair.bare (.moduleRoot format) default file set.modules.length with name := some file }
  have hadd : set.tree.blur.add pair.blur = (set.tree.add pair).map id blurring.tree :=
    PairTree.add_moved (r := blurring) set.tree pair
  change ((set.tree.blur.add pair.blur).1,
    ModuleSet.mk (set.tree.blur.add pair.blur).2 (set.modules ++ [(set.tree.blur.add pair.blur).1])) = _
  rw [hadd]
  rfl

theorem ModuleSet.ofLines_blur (lines : List Line) :
    set.blur.ofLines file format (lines.map blurring.line) = (set.ofLines file format lines).blur := by
  unfold ofLines
  rw [addModule_blur]
  generalize set.addModule file format = added
  obtain ⟨root, set⟩ := added
  have hindex : (set.blur.tree.get root).fileIndex = (set.tree.get root).fileIndex := by
    change ((blurring.tree set.tree).get root).fileIndex = _
    rw [PairTree.get_moved]
    rfl
  dsimp only [Prod.map, id]
  rw [hindex]
  let site : Site := ⟨root, format, file, (set.tree.get root).fileIndex⟩
  have hlines : (lines.map blurring.line).foldlM (addLine site) (blurring.builder ⟨set.tree, [root], []⟩) = _ :=
    outcome_foldlM (fun b => addLine_moved (r := blurring) b site fun _ => rfl) lines _
  change (match (lines.map blurring.line).foldlM (addLine ⟨root, format, file, _⟩)
      (blurring.builder ⟨set.tree, [root], []⟩) with
    | .ok b => _
    | .error halt => _) = _
  rw [hlines]
  cases lines.foldlM (addLine ⟨root, format, file, (set.tree.get root).fileIndex⟩) ⟨set.tree, [root], []⟩ with
  | error halt =>
    obtain ⟨fault, log⟩ := halt
    cases fault <;> rfl
  | ok b =>
    simp only [BuilderMap.outcome, finish_moved]
    rfl

end

/-- Texts whose lines differ only in what is blurred make modules that differ only so. -/
theorem ModuleSet.parse_blur_eq {text text' : List Char}
    (h : (Line.ofText text).map blurring.line = (Line.ofText text').map blurring.line) (set : ModuleSet)
    (file : String) (format : Format) :
    (set.parse file format text).blur = (set.parse file format text').blur := by
  rw [parse_eq_ofLines, parse_eq_ofLines, ← ofLines_blur, ← ofLines_blur, h]

theorem Collection.receive_blur (c : Collection) (d : Diagnostic) :
    c.blur.receive d.blur = (c.receive d).map Collection.blur := by
  obtain ⟨limit, entries⟩ := c
  have happend : entries.map Diagnostic.blur ++ [d.blur] = (entries ++ [d]).map Diagnostic.blur := by
    rw [map_append, map_singleton]
  simp only [receive, blur, happend, length_map]
  cases limit with
  | none => rfl
  | some limit =>
    dsimp only
    split <;> rfl

theorem Collection.receiveAll_blur (c : Collection) (ds : List Diagnostic) :
    c.blur.receiveAll (ds.map Diagnostic.blur) = ((c.receiveAll ds).map Collection.blur).mapError Stopped.blur := by
  induction ds generalizing c with
  | nil => rfl
  | cons d ds ih =>
    rw [map_cons, receiveAll, receive_blur, receiveAll]
    cases c.receive d with
    | error failure => rfl
    | ok received => exact ih received

namespace Session

theorem accept_blur (s : Session) (work : Logged ModuleSet) :
    s.blur.accept work.blur = ((s.accept work).map blur).mapError Stopped.blur := by
  obtain ⟨log, result⟩ := work
  have hreceive : s.blur.collection.receiveAll (Logged.blur ⟨log, result⟩).log =
      ((s.collection.receiveAll log).map Collection.blur).mapError Stopped.blur :=
    s.collection.receiveAll_blur log
  unfold accept
  rw [hreceive]
  cases s.collection.receiveAll log with
  | error stopped => rfl
  | ok collection => cases result <;> rfl

/-- The outcome of parsing does not depend on how lines end. -/
theorem parse_withReturns (s : Session) (source : Source) (hreturn : '\r' ∉ source.text) :
    ((s.parse { source with text := Text.withReturns source.text }).map blur).mapError Stopped.blur =
      ((s.parse source).map blur).mapError Stopped.blur := by
  have hwork := ModuleSet.parse_blur_eq (Line.ofText_withReturns hreturn) s.set source.name source.format
  rw [parse_eq_accept, parse_eq_accept, ← accept_blur, ← accept_blur, hwork]

/-- An escape before a line break, a text over two lines, an open group, a block below a value
    and a comment that is not closed. -/
def brokenSource : Source where
  name := "broken"
  format := .xml
  text := "a = \"x\\\n   y\"\n   b\n(c,\nd (\n\"\"\"e".toList

theorem brokenSource_with_returns : '\r' ∉ brokenSource.text ∧
      (((start (some 3)).parse { brokenSource with text := Text.withReturns brokenSource.text }).map
        blur).mapError Stopped.blur =
        (((start (some 3)).parse brokenSource).map blur).mapError Stopped.blur :=
  ⟨by decide +kernel, parse_withReturns (start (some 3)) brokenSource (by decide +kernel)⟩

end Session

end PairMarkup
