import PairMarkup.Proofs.Construction.Strokes
import PairMarkup.Proofs.Session

namespace PairMarkup

open List

theorem Builder.found_foldlM {site : Site} {b b' : Builder} {lines : List Line}
    (h : lines.foldlM (addLine site) b = .ok b') :
    b'.found = b.found ++ ((lines.flatMap Line.notes).map (·.code)).filter (· ≠ .blockIsNotExpected) := by
  have hdraws : Draws site 0 (lines.flatMap Line.notes) { b with blocks := [] } { b' with blocks := [] } :=
    Draws.foldlM (fun b => { b with blocks := [] }) (fun _ _ _ _ hstep =>
      ⟨(addLine_draws hstep).strokes, rfl, (addLine_draws hstep).found_eq⟩) h
  exact hdraws.found_eq

theorem ModuleSet.ofReading_parse {set set' : ModuleSet} {file : String} {format : Format} {text : List Char}
    (h : (set.parse file format text).result = .ok set') :
    ∀ d ∈ (set.parse file format text).log, d.code.IsOfReading := by
  simp only [ModuleSet.parse] at h ⊢
  split at h
  · rename_i b hlines
    intro d hd
    by_cases hcode : d.code = .blockIsNotExpected
    · rw [hcode]
      decide
    · have hfound : d.code ∈ b.found := by simpa [Builder.found, hcode] using ⟨d, hd, rfl⟩
      rw [Builder.found_foldlM hlines] at hfound
      rcases mem_append.mp hfound with hold | hnew
      · cases hold
      · obtain ⟨note, -, heq⟩ := mem_map.mp (mem_of_mem_filter hnew)
        exact heq ▸ note.ofReading
  · cases h

theorem Session.ofReading_of_start {limit : Option Nat} {sources : List Source} {s : Session}
    (h : (start limit).parseAll sources = .ok s) : ∀ d ∈ s.collection.entries, d.code.IsOfReading := by
  refine foldlM_ok_induction (P := fun s : Session => ∀ d ∈ s.collection.entries, d.code.IsOfReading)
    (fun s source _ s' hs hstep => ?_) (fun _ hd => absurd hd not_mem_nil) h
  obtain ⟨hresult, hreceive⟩ := parse_eq_ok hstep
  rw [Collection.entries_of_receiveAll hreceive]
  exact forall_mem_append.mpr ⟨hs, ModuleSet.ofReading_parse hresult⟩

end PairMarkup
