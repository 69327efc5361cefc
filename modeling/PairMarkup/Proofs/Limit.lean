import PairMarkup.Compilation
import PairMarkup.Proofs.Reporting

namespace PairMarkup

open ModuleSet

namespace Collection

theorem receiveAll_of_unlimited (es ds : List Diagnostic) : receiveAll ⟨none, es⟩ ds = .ok ⟨none, es ++ ds⟩ := by
  induction ds generalizing es with
  | nil => rw [List.append_nil, receiveAll]
  | cons d ds ih =>
    simp only [receiveAll, receive]
    rw [ih, List.append_assoc]
    rfl

/-- As long as there is room, diagnostics are taken. The first one that is refused
    finds a full collection. -/
theorem receiveAll_of_limited {m : Nat} {es : List Diagnostic} (hroom : es.length ≤ m) (ds : List Diagnostic) :
    receiveAll ⟨some m, es⟩ ds =
      if (es ++ ds).length ≤ m then .ok ⟨some m, es ++ ds⟩
      else .error ⟨.tooManyErrors m, (es ++ ds).take m⟩ := by
  induction ds generalizing es with
  | nil => rw [List.append_nil, if_pos hroom, receiveAll]
  | cons d ds ih =>
    by_cases hlt : es.length < m
    · have hnext : (es ++ [d]).length ≤ m := by
        rw [List.length_append]
        exact hlt
      simp only [receiveAll, receive, if_pos hlt]
      rw [ih hnext, List.append_assoc]
      rfl
    · have hfull : es.length = m := Nat.le_antisymm hroom (Nat.le_of_not_lt hlt)
      have hlong : ¬ (es ++ d :: ds).length ≤ m := by
        rw [List.length_append, List.length_cons]
        omega
      simp only [receiveAll, receive, if_neg hlt]
      rw [if_neg hlong, ← hfull, List.take_left]

end Collection

namespace Logged

variable {α β : Type} (found : List Diagnostic) (work : Logged α) (next : α → Logged β)

/-- The same work after other work that found something. -/
def after (found : List Diagnostic) (work : Logged α) : Logged α := { work with log := found ++ work.log }

/-- More work on the result, unless a fault has ended it. -/
def andThen (work : Logged α) (next : α → Logged β) : Logged β :=
  match work.result with
  | .ok a => (next a).after work.log
  | .error fault => ⟨work.log, .error fault⟩

theorem after_after (found' : List Diagnostic) (work : Logged α) :
    (work.after found').after found = work.after (found ++ found') := by
  simp only [after, List.append_assoc]

theorem andThen_after : (work.after found).andThen next = (work.andThen next).after found := by
  obtain ⟨log, result⟩ := work
  cases result with
  | ok a => exact (after_after found log (next a)).symm
  | error fault => rfl

theorem log_prefix_andThen : work.log <+: (work.andThen next).log := by
  unfold andThen
  split
  · exact List.prefix_append _ _
  · exact List.prefix_rfl

/-- How work ends when all that it found is taken. -/
def ended (limit : Option Nat) (work : Logged ModuleSet) : Except Stopped Session :=
  match work.result with
  | .ok set => .ok ⟨set, limit, work.log⟩
  | .error fault => .error ⟨.structural fault, work.log⟩

/-- How work ends under a limit: in the same way, unless it found too much. -/
def within (limit : Option Nat) (work : Logged ModuleSet) : Except Stopped Session :=
  match limit with
  | none => work.ended none
  | some m =>
    if work.log.length ≤ m then work.ended (some m)
    else .error ⟨.tooManyErrors m, work.log.take m⟩

/-- Work that was cut off would have been cut off at the same place if it had been
    longer. -/
theorem within_andThen {limit : Option Nat} {work : Logged ModuleSet} {next : ModuleSet → Logged ModuleSet}
    {step : Session → Except Stopped Session}
    (hstep : ∀ set, work.within limit = .ok ⟨set, limit, work.log⟩ →
      step ⟨set, limit, work.log⟩ = ((next set).after work.log).within limit) :
    work.within limit >>= step = (work.andThen next).within limit := by
  obtain ⟨log, result⟩ := work
  have hended : Logged.within limit ⟨log, result⟩ = ended limit ⟨log, result⟩ →
      Logged.within limit ⟨log, result⟩ >>= step = (andThen ⟨log, result⟩ next).within limit := by
    intro hwithin
    cases result with
    | ok set =>
      rw [hwithin]
      exact hstep set hwithin
    | error fault =>
      rw [hwithin]
      exact hwithin.symm
  cases limit with
  | none => exact hended rfl
  | some m =>
    by_cases hroom : log.length ≤ m
    · exact hended (if_pos hroom)
    · have hprefix := log_prefix_andThen ⟨log, result⟩ next
      have hlong : ¬ (andThen ⟨log, result⟩ next).log.length ≤ m :=
        fun hle => hroom (Nat.le_trans hprefix.length_le hle)
      obtain ⟨more, hmore⟩ := hprefix
      have htake : (andThen ⟨log, result⟩ next).log.take m = log.take m := by
        rw [← hmore, List.take_append_of_le_length (Nat.le_of_not_le hroom)]
      simp only [within, if_neg hroom, if_neg hlong, htake]
      rfl

end Logged

namespace ModuleSet

def readAll (set : ModuleSet) : List Source → Logged ModuleSet
  | [] => ⟨[], .ok set⟩
  | source :: sources =>
    (set.parse source.name source.format source.text).andThen fun set => set.readAll sources

/-- Resolving finds something in every unit, and ends in a unit. -/
def resolved (set : ModuleSet) : Logged ModuleSet := ⟨set.resolve.2.map (·.diagnostic), .ok set.resolve.1⟩

end ModuleSet

namespace Session

/-- A collection holds no more than it may. -/
def HasRoom (s : Session) : Prop := ∀ m, s.collection.limit = some m → s.collection.entries.length ≤ m

def compile (limit : Option Nat) (sources : List Source) : Except Stopped Session := do
  let parsed ← (start limit).parseAll sources
  parsed.resolve

theorem hasRoom_of_within {limit : Option Nat} {work : Logged ModuleSet} {set : ModuleSet}
    (h : work.within limit = .ok ⟨set, limit, work.log⟩) : HasRoom ⟨set, limit, work.log⟩ := by
  intro m hm
  change limit = some m at hm
  subst hm
  simp only [Logged.within] at h
  split at h
  · assumption
  · cases h

variable {s : Session}

/-- To hand over what was found and to go on is to do the work under the limit. -/
theorem accept_eq_within (hroom : s.HasRoom) (work : Logged ModuleSet) :
    s.accept work = (work.after s.collection.entries).within s.collection.limit := by
  unfold accept
  obtain ⟨set, limit, entries⟩ := s
  cases limit with
  | none =>
    rw [Collection.receiveAll_of_unlimited]
    rfl
  | some m =>
    rw [Collection.receiveAll_of_limited (hroom m rfl)]
    by_cases hle : (entries ++ work.log).length ≤ m
    · rw [if_pos hle]
      exact (if_pos hle).symm
    · rw [if_neg hle]
      exact (if_neg hle).symm

theorem parse_eq_within (hroom : s.HasRoom) (source : Source) :
    s.parse source = ((s.set.parse source.name source.format source.text).after
      s.collection.entries).within s.collection.limit :=
  (s.parse_eq_accept source).trans (accept_eq_within hroom _)

theorem resolve_eq_within (hroom : s.HasRoom) :
    s.resolve = (s.set.resolved.after s.collection.entries).within s.collection.limit :=
  s.resolve_eq_accept.trans (accept_eq_within hroom s.set.resolved)

theorem parseAll_eq_within (hroom : s.HasRoom) (sources : List Source) : s.parseAll sources =
      ((s.set.readAll sources).after s.collection.entries).within s.collection.limit := by
  induction sources generalizing s with
  | nil =>
    obtain ⟨set, limit, entries⟩ := s
    simp only [parseAll, List.foldlM_nil, readAll, Logged.after, List.append_nil]
    cases limit with
    | none => rfl
    | some m => exact (if_pos (hroom m rfl)).symm
  | cons source sources ih =>
    have hcons : s.parseAll (source :: sources) =
        s.parse source >>= fun next => next.parseAll sources := List.foldlM_cons
    rw [hcons, parse_eq_within hroom, readAll, ← Logged.andThen_after]
    exact Logged.within_andThen fun set hset => ih (hasRoom_of_within hset)

theorem compile_eq_within (limit : Option Nat) (sources : List Source) : compile limit sources =
      ((empty.readAll sources).andThen resolved).within limit := by
  have hroom : (start limit).HasRoom := fun m _ => Nat.zero_le m
  rw [compile, parseAll_eq_within hroom]
  exact Logged.within_andThen fun set hset => resolve_eq_within (hasRoom_of_within hset)

end Session

namespace Compilation

/-- What compiling gives when all that was found is taken. -/
def ended (work : Logged ModuleSet) : Except Stopped Compilation :=
  match work.result with
  | .ok set => .ok ⟨set, Diagnostic.sort work.log⟩
  | .error fault => .error ⟨.structural fault, work.log⟩

/-- Compiling without a limit finds some diagnostics and ends in a unit or in a fault. With
    a limit it ends in the same way and with the same diagnostics if these are not too
    many, and otherwise holds as many of them, from the first on, as it may. -/
theorem limit_only_cuts_off (options : Options) (sources : List Source) : ∃ work : Logged ModuleSet,
      Session.compile none sources = work.ended none ∧ ofSources options sources =
          if work.log.length ≤ options.maxErrors then ended work
          else .error ⟨.tooManyErrors options.maxErrors, work.log.take options.maxErrors⟩ := by
  refine ⟨(ModuleSet.empty.readAll sources).andThen ModuleSet.resolved,
    Session.compile_eq_within none sources, ?_⟩
  have hsources : ofSources options sources = (Session.compile (some options.maxErrors) sources >>= fun s =>
        pure ⟨s.set, s.collection.sorted⟩) := by
    rw [ofSources, Session.compile, bind_assoc]
  rw [hsources, Session.compile_eq_within]
  generalize (ModuleSet.empty.readAll sources).andThen ModuleSet.resolved = work
  obtain ⟨log, result⟩ := work
  simp only [Logged.within]
  split
  · cases result with
    | ok set => rfl
    | error fault => rfl
  · rfl

end Compilation

end PairMarkup
