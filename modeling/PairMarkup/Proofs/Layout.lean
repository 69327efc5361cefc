import PairMarkup.Proofs.Construction.Modules
import PairMarkup.Proofs.Session

namespace PairMarkup

open Cursor Glyph

namespace Cursor

variable {c : Cursor} {gs rest : List Glyph}

theorem notAfter_of_suffix (hrest : rest <:+ gs) (hgs : gs <:+ c.ahead) : (here c.stop gs).NotAfter (here c.stop rest) ∧
      (rest.length < gs.length → (here c.stop gs).offset < (here c.stop rest).offset) := by
  obtain ⟨n, d, htakes, rfl, -⟩ := Takes.of_suffix hgs
  obtain ⟨k, e, hmore, rfl, hlength⟩ := Takes.of_suffix hrest
  obtain ⟨-, -, -, hstop⟩ := htakes.spec
  obtain ⟨-, hnotAfter, hoffset, hstop'⟩ := hmore.spec
  rw [← hstop, here_ahead, ← hstop', here_ahead]
  refine ⟨hnotAfter, fun hlt => ?_⟩
  omega

end Cursor

/-- The stream over the text comes to this place. -/
def Position.OnStream (text : List Char) (p : Position) : Prop :=
  ∃ n c, (Cursor.ofList text).Takes n c ∧ c.position = p

theorem Position.onStream_of_suffix {text : List Char} {gs : List Glyph}
    (h : gs <:+ (ofList text).ahead) : (here (ofList text).stop gs).OnStream text := by
  obtain ⟨n, c, htakes, rfl, -⟩ := Cursor.Takes.of_suffix h
  obtain ⟨-, -, -, hstop⟩ := htakes.spec
  refine ⟨n, c, htakes, ?_⟩
  rw [← hstop, here_ahead]

namespace Span

/-- The span of some part of the text. -/
structure Faithful (text : List Char) (span : Span) : Prop where
  start_onStream : span.start.OnStream text
  stop_onStream : span.stop.OnStream text
  offset_le : span.start.offset ≤ span.stop.offset
  stop_le : span.stop.offset ≤ text.length
  wellFormed : span.isWellFormed = true

/-- What has the span `b` begins behind what has the span `a`. -/
structure Precedes (a b : Span) : Prop where
  stop_le : a.stop.offset ≤ b.start.offset
  start_lt : a.start.offset < b.start.offset

variable {text : List Char} {span : Span}

theorem LiesIn.faithful (h : span.LiesIn (ofList text).stop (ofList text).ahead []) : span.Faithful text := by
  obtain ⟨a, b, rfl, -, hba, ha⟩ := h
  have hnotAfter := (notAfter_of_suffix hba ha).1
  have hend : _ ≤ (ofList text).stop.offset := (notAfter_of_suffix List.nil_suffix (hba.trans ha)).1.offset_le
  rw [offset_stop] at hend
  refine ⟨Position.onStream_of_suffix ha, Position.onStream_of_suffix (hba.trans ha), hnotAfter.offset_le, ?_,
    hnotAfter.isWellFormed⟩
  exact hend.trans (Nat.zero_add _).le

theorem Fills.precedes {c : Cursor} {gs mid rest : List Glyph} {a b : Span} (ha : a.Fills c.stop gs mid)
    (hb : b.LiesIn c.stop mid rest) (hgs : gs <:+ c.ahead) : a.Precedes b := by
  obtain ⟨start, last, rfl, hmid, hlast, hlt, hstart⟩ := ha
  obtain ⟨start', last', rfl, -, -, hstart'⟩ := hb
  have hbehind : start' <:+ last := hstart'.trans hmid
  have hsuffix := hlast.trans (hstart.trans hgs)
  refine ⟨(notAfter_of_suffix hbehind hsuffix).1.offset_le, ?_⟩
  apply (notAfter_of_suffix (hbehind.trans hlast) (hstart.trans hgs)).2
  exact hbehind.length_le.trans_lt hlt

end Span

namespace PairTree

variable {t : PairTree} {ids : List PairId}

theorem SpansInOrder.pairwise {c : Cursor} {gs rest : List Glyph} (h : SpansInOrder c.stop t gs ids rest)
    (hgs : gs <:+ c.ahead) : ids.Pairwise fun a b => (t.get a).span.Precedes (t.get b).span := by
  induction ids generalizing gs with
  | nil => exact .nil
  | cons id ids ih =>
    obtain ⟨mid, hid, hids⟩ := h
    refine .cons (fun other hother => ?_) (ih hids (hid.suffix.trans hgs))
    exact hid.precedes (SpansInOrder.of_mem hids hother).liesIn hgs

end PairTree

namespace Session

/-- Every pair other than a comment or a text between references has its value, or none, in just one of
    the ways that its delimiter allows. -/
theorem values_have_one_shape {limit : Option Nat} {sources : List Source} {s : Session}
    (hok : (start limit).parseAll sources = .ok s) {m x : PairId} (hm : m ∈ s.set.modules)
    (hx : s.set.tree.HangsFrom m x) (hcomment : (s.set.tree.kind x).isComment = false)
    (htext : ¬ s.set.tree.IsTextPart x) : ∃! shape, s.set.tree.HasShape x shape := by
  obtain ⟨source, -, hlaid⟩ := (laid_of_start hok).exists_source hm
  rcases (hlaid x hx).shaped with hcomment' | htext' | ⟨shape, hshape⟩
  · rw [hcomment] at hcomment'
    cases hcomment'
  · exact absurd htext' htext
  · exact ⟨shape, hshape, fun other hother => hother.unique hshape⟩

/-- A document with a text in parts, a value that is written as a block with a comment in it, and a free
    text. -/
def shapedSource : Source where
  name := "a.pxml"
  format := .xml
  text := "!d:\n    a = \"p $q r\"\n    b := '''note\n        = t\n        = $q\n    c == x\n".toList

/-- The block of `b` is gathered, and the comment is left out of it. -/
theorem shapedSource_one_shape : ∃ s, (start none).parseAll [shapedSource] = .ok s ∧ 0 ∈ s.set.modules ∧
    s.set.tree.HangsFrom 0 6 ∧ (s.set.tree.kind 6).isComment = false ∧ ¬ s.set.tree.IsTextPart 6 ∧
    s.set.tree.children 6 = [7] ∧ (s.set.tree.get 6).items = some [8, 9] ∧
    ∃! shape, s.set.tree.HasShape 6 shape := by
  obtain ⟨s, -, hok, -, hcheck⟩ := exists_confirmed
    (show confirms none [shapedSource] (fun parsed _ => 0 ∈ parsed.set.modules ∧
      1 ∈ (parsed.set.tree.get 0).held ∧ 6 ∈ (parsed.set.tree.get 1).held ∧
      (parsed.set.tree.get 1).delimiter = .colon ∧ (parsed.set.tree.kind 6).isComment = false ∧
      parsed.set.tree.children 6 = [7] ∧ (parsed.set.tree.get 6).items = some [8, 9]) = true by decide +kernel)
  obtain ⟨hm, hdocument, hheld, hdelimiter, hcomment, hchildren, hitems⟩ := hcheck
  have hx : s.set.tree.HangsFrom 0 6 := .tail (.single hdocument) hheld
  have hwf := (parsed_of_start hok).tree_parsed.wellFormed
  have htext : ¬ s.set.tree.IsTextPart 6 := by
    rintro ⟨-, owner, howner, items, hitems, hmem⟩
    -- The document is the only pair that holds this one, and it has no parts of a text.
    have hup := hwf.mem_held_iff.mp (show 6 ∈ (s.set.tree.get owner).held by
      rw [Pair.held, hitems]
      exact List.mem_append_right _ hmem)
    rw [hwf.mem_held_iff.mp hheld] at hup
    cases hup
    rw [hdelimiter] at howner
    cases howner
  exact ⟨s, hok, hm, hx, hcomment, htext, hchildren, hitems, values_have_one_shape hok hm hx hcomment htext⟩

/-- Every module has one of the texts, in order. All that hangs from it is where the stream over the text
    has been, and what a pair holds is in the order of the text. -/
theorem spans_faithful_and_ordered {limit : Option Nat} {sources : List Source} {s : Session}
    (hok : (start limit).parseAll sources = .ok s) :
    List.Forall₂ (fun m (source : Source) => ∀ x, s.set.tree.HangsFrom m x →
      (x ≠ m → (s.set.tree.get x).span.Faithful source.text ∧ (s.set.tree.get x).nameSpan.Faithful source.text) ∧
      (s.set.tree.children x).Pairwise (fun a b => (s.set.tree.get a).span.Precedes (s.set.tree.get b).span) ∧
      ((s.set.tree.get x).items.getD []).Pairwise fun a b => (s.set.tree.get a).span.Precedes (s.set.tree.get b).span)
      s.set.modules sources := by
  refine List.Forall₂.imp (fun m source hm x hx => ?_) (laid_of_start hok)
  obtain ⟨hspans, hchildren, hitems, -⟩ := hm.2 x hx
  refine ⟨fun hne => ⟨(hspans hne).1.faithful, (hspans hne).2.faithful⟩, ?_, ?_⟩
  · exact hchildren.pairwise (List.suffix_refl _)
  · exact hitems.pairwise (List.suffix_refl _)

/-- The parts of the block lie one behind the other, and the block itself lies in the text. -/
theorem shapedSource_spans : ∃ s, (start none).parseAll [shapedSource] = .ok s ∧ s.set.modules = [0] ∧
    s.set.tree.HangsFrom 0 6 ∧ (s.set.tree.get 6).span.Faithful shapedSource.text ∧
    (s.set.tree.get 8).span.Precedes (s.set.tree.get 9).span := by
  obtain ⟨s, -, hok, -, hcheck⟩ := exists_confirmed
    (show confirms none [shapedSource] (fun parsed _ => parsed.set.modules = [0] ∧
      1 ∈ (parsed.set.tree.get 0).held ∧ 6 ∈ (parsed.set.tree.get 1).held ∧
      (parsed.set.tree.get 6).items = some [8, 9]) = true by decide +kernel)
  obtain ⟨hmodules, hdocument, hheld, hitems⟩ := hcheck
  have hx : s.set.tree.HangsFrom 0 6 := .tail (.single hdocument) hheld
  have hall := spans_faithful_and_ordered hok
  rw [hmodules] at hall
  obtain ⟨hmodule, -⟩ := List.forall₂_cons.mp hall
  obtain ⟨hspans, -, hparts⟩ := hmodule 6 hx
  rw [hitems] at hparts
  exact ⟨s, hok, hmodules, hx, (hspans (by decide)).1,
    (List.pairwise_cons.mp hparts).1 9 (List.mem_singleton_self 9)⟩

end Session

end PairMarkup
