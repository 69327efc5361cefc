import PairMarkup.Glyph

namespace PairMarkup

open List

namespace Position

/-- The place `q` is not before the place `p`, neither by offset nor by line and column. -/
structure NotAfter (p q : Position) : Prop where
  offset_le : p.offset ≤ q.offset
  line_le : p.line < q.line ∨ p.line = q.line ∧ p.column ≤ q.column

namespace NotAfter

variable {p q r : Position}

theorem refl (p : Position) : p.NotAfter p := ⟨Nat.le_refl _, .inr ⟨rfl, Nat.le_refl _⟩⟩

theorem trans (h : p.NotAfter q) (h' : q.NotAfter r) : p.NotAfter r := by
  obtain ⟨hoffset, hline⟩ := h
  obtain ⟨hoffset', hline'⟩ := h'
  refine ⟨Nat.le_trans hoffset hoffset', ?_⟩
  omega

theorem after (p : Position) (c : Char) : p.NotAfter (p.after c) := by
  unfold Position.after
  split
  · exact ⟨Nat.le_succ _, .inl (Nat.lt_succ_self _)⟩
  · split
    · exact ⟨Nat.le_succ _, .inr ⟨rfl, Nat.le_refl _⟩⟩
    · exact ⟨Nat.le_succ _, .inr ⟨rfl, Nat.le_succ _⟩⟩

theorem isWellFormed (h : p.NotAfter q) : Span.isWellFormed ⟨p, q⟩ := by
  have hoffset := h.offset_le
  have hline := h.line_le
  simp only [Span.isWellFormed, Bool.and_eq_true, Bool.or_eq_true, decide_eq_true_eq]
  exact ⟨hoffset, hline⟩

end NotAfter

@[simp] theorem offset_after (p : Position) (c : Char) : (p.after c).offset = p.offset + 1 := by
  unfold Position.after
  split
  · rfl
  · split <;> rfl

end Position

namespace Cursor

open Glyph

variable {c c' c'' : Cursor} {gs : List Glyph}

/-- From `c` the stream has come to `c'`, with `n` characters taken. -/
def Takes (n : Nat) (c c' : Cursor) : Prop := c.skip n = (n, c')

/-- From `c` the stream has come to `c'`, with at least one character taken. -/
def Advances (c c' : Cursor) : Prop := ∃ n, 0 < n ∧ Takes n c c'

/-- All that one character more changes: it is no longer ahead, and the place is a later one. -/
theorem consume_spec {x : Char} (h : c.consume? = some (x, c')) :
    (∃ g, c.ahead = g :: c'.ahead ∧ g.char = x ∧ g.position = c.position) ∧
      c.position.NotAfter c'.position ∧ c.position.offset < c'.position.offset ∧ c'.stop = c.stop := by
  unfold consume? at h
  split at h
  · rename_i rest hrest
    cases h
    refine ⟨⟨returned c.position, ?_, rfl, rfl⟩, ?_, ?_, ?_⟩
    · rw [ahead, hrest, place]
      rfl
    · exact (Position.NotAfter.after c.position '\r').trans (Position.NotAfter.after _ '\n')
    · simp only [Position.offset_after]
      omega
    · rw [stop, stop, hrest]
      rfl
  · rename_i y rest hpair hrest
    cases h
    refine ⟨⟨plain x c.position, ?_, rfl, rfl⟩, Position.NotAfter.after .., ?_, ?_⟩
    · rw [ahead, hrest, place]
      · rfl
      · rintro rest' rfl rfl
        exact hpair rest' rfl rfl
    · simp only [Position.offset_after]
      omega
    · rw [stop, stop, hrest]
      rfl
  · cases h

theorem exists_consume {g : Glyph} (h : c.ahead = g :: gs) : ∃ x c', c.consume? = some (x, c') ∧ c'.ahead = gs := by
  cases hconsume : c.consume? with
  | none =>
    unfold consume? at hconsume
    split at hconsume
    · cases hconsume
    · cases hconsume
    · rename_i hrest
      rw [ahead, hrest, place] at h
      cases h
  | some taken =>
    obtain ⟨x, c'⟩ := taken
    obtain ⟨⟨first, hahead, -⟩, -⟩ := consume_spec hconsume
    rw [hahead] at h
    exact ⟨x, c', rfl, (List.cons.inj h).2⟩

theorem ahead_eq_nil_iff : c.ahead = [] ↔ c.isAtEnd := by
  rw [isAtEnd, List.isEmpty_iff]
  constructor
  · intro h
    unfold ahead at h
    cases hrest : c.rest with
    | nil => rfl
    | cons x rest =>
      rw [hrest] at h
      unfold place at h
      split at h
      · cases h
      · cases h
      · rename_i hnil
        cases hnil
  · intro h
    rw [ahead, h, place]

namespace Takes

theorem zero (c : Cursor) : Takes 0 c c := rfl

variable {n : Nat}

theorem succ_iff : Takes (n + 1) c c' ↔ ∃ x d, c.consume? = some (x, d) ∧ Takes n d c' := by
  unfold Takes
  cases hconsume : c.consume? with
  | none => simp [skip, hconsume]
  | some taken =>
    obtain ⟨x, d⟩ := taken
    have hskip : c.skip (n + 1) = ((d.skip n).1 + 1, (d.skip n).2) := by simp only [skip, hconsume]
    rw [hskip]
    constructor
    · intro h
      exact ⟨x, d, rfl, Prod.ext (Nat.succ.inj (congrArg Prod.fst h)) (congrArg Prod.snd h :)⟩
    · rintro ⟨y, e, hsome, htakes⟩
      cases hsome
      rw [htakes]

theorem of_suffix {gs : List Glyph} (h : gs <:+ c.ahead) :
    ∃ n c', Takes n c c' ∧ c'.ahead = gs ∧ gs.length + n = c.ahead.length := by
  generalize hahead : c.ahead = all at h ⊢
  induction all generalizing c with
  | nil =>
    rw [suffix_nil.mp h]
    exact ⟨0, c, zero c, hahead, rfl⟩
  | cons g all ih =>
    rcases suffix_cons_iff.mp h with rfl | hrest
    · exact ⟨0, c, zero c, hahead, rfl⟩
    · obtain ⟨x, d, hconsume, hd⟩ := exists_consume hahead
      obtain ⟨n, c', htakes, hgs, hlength⟩ := ih hd hrest
      refine ⟨n + 1, c', succ_iff.mpr ⟨x, d, hconsume, htakes⟩, hgs, ?_⟩
      rw [length_cons]
      omega

theorem spec (h : Takes n c c') : c'.ahead <:+ c.ahead ∧ c.position.NotAfter c'.position ∧
      c.position.offset + n ≤ c'.position.offset ∧ c'.stop = c.stop := by
  induction n generalizing c with
  | zero =>
    cases h
    exact ⟨suffix_refl _, .refl _, Nat.le_refl _, rfl⟩
  | succ n ih =>
    obtain ⟨x, d, hconsume, hrest⟩ := succ_iff.mp h
    obtain ⟨⟨g, hahead, -⟩, hnotAfter, hlt, hstop⟩ := consume_spec hconsume
    obtain ⟨hsuffix, hnotAfter', hle, hstop'⟩ := ih hrest
    refine ⟨?_, hnotAfter.trans hnotAfter', ?_, hstop'.trans hstop⟩
    · rw [hahead]
      exact hsuffix.trans (suffix_cons g _)
    · omega

end Takes

theorem exists_advances (h : gs <:+ c.ahead) (hlt : gs.length < c.ahead.length) :
    ∃ c', c.Advances c' ∧ c'.ahead = gs := by
  obtain ⟨n, c', htakes, hahead, hlength⟩ := Takes.of_suffix h
  exact ⟨c', ⟨n, by omega, htakes⟩, hahead⟩

theorem here_ahead (c : Cursor) : here c.stop c.ahead = c.position := by
  cases hahead : c.ahead with
  | nil =>
    have hrest : c.rest = [] := List.isEmpty_iff.mp (ahead_eq_nil_iff.mp hahead)
    rw [here, stop, hrest]
    rfl
  | cons g gs =>
    obtain ⟨x, d, hconsume, -⟩ := exists_consume hahead
    obtain ⟨⟨first, hfirst, -, hposition⟩, -⟩ := consume_spec hconsume
    rw [hahead] at hfirst
    cases hfirst
    exact hposition

theorem offset_stop (c : Cursor) : c.stop.offset = c.position.offset + c.rest.length := by
  unfold stop placeAfter
  generalize c.position = p
  induction c.rest generalizing p with
  | nil => rfl
  | cons x rest ih =>
    rw [foldl_cons, ih, Position.offset_after, length_cons]
    omega

end Cursor

end PairMarkup
