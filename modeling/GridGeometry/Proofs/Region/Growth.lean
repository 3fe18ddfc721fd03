import GridGeometry.Region.Growth
import Mathlib.Data.Finset.Card
import Mathlib.Data.List.Nodup

/-!
# What a grower remembers

A grower hands on the gaps that it has computed, and three operations take it and return it. What it
remembers never shows: at any time it holds the true gaps of the numbers of segments asked for so
far, up to the limit, each once (`ArcGaps.Remembers`). An operation asks for the gap of one number
of segments at most (`Call.segments?`, `Call.snd_run`) and keeps the memory in this state
(`Remembers.snd_run`).

What is seen of a call is its request to the clipper, which is all that the clipper learns of it
(`Call.run_congr`), and its answer. In a series of calls each one has the outcome that it has on a
new grower, and the number of remembered gaps can be read off the series
(`Grower.runAll_ofSettings`).
-/

namespace GridGeometry

/-! ### The memory -/

/-- What is remembered after the gaps of some numbers of segments have been asked for: those of the
numbers up to the limit, each once, with their true values. -/
structure ArcGaps.Remembers (g : ArcGaps) (asked : List Nat) : Prop where
  nodup : (g.known.map Prod.fst).Nodup
  mem_iff : ∀ n, n ∈ g.known.map Prod.fst ↔ n ∈ asked ∧ n ≤ g.limit
  value_eq : ∀ n v, (n, v) ∈ g.known → v = unitArcGap n

namespace ArcGaps

variable {g : ArcGaps} {asked : List Nat}

theorem remembers_empty (limit : Nat) : (empty limit).Remembers [] where
  nodup := .nil
  mem_iff _ := by simp [empty]
  value_eq _ _ h := absurd h List.not_mem_nil

theorem lookup_eq_none_iff {n : Nat} : g.known.lookup n = none ↔ n ∉ g.known.map Prod.fst := by
  rw [List.lookup_eq_none_iff, List.mem_map]
  simp only [bne_iff_ne, ne_eq]
  exact ⟨fun h ⟨x, hx, heq⟩ ↦ h x hx heq.symm, fun h x hx heq ↦ h ⟨x, hx, heq.symm⟩⟩

@[simp] theorem limit_gap (g : ArcGaps) (n : Nat) : (g.gap n).2.limit = g.limit := by
  rw [gap]
  split
  case h_1 => rfl
  case h_2 => split <;> rfl

namespace Remembers

/-- A remembered gap is the one that would be computed. -/
theorem fst_gap (h : g.Remembers asked) (n : Nat) : (g.gap n).1 = unitArcGap n := by
  rw [gap]
  split
  case h_1 v hv =>
    obtain ⟨before, behind, heq, -⟩ := List.lookup_eq_some_iff.1 hv
    exact h.value_eq n v (heq ▸ List.mem_append_right _ List.mem_cons_self)
  case h_2 => rfl

/-- Nothing need be done about a number of segments that was asked for before or is too large. -/
theorem cons_of_or (h : g.Remembers asked) {n : Nat} (hn : n ∈ asked ∨ g.limit < n) :
    g.Remembers (n :: asked) := by
  refine ⟨h.nodup, fun m ↦ ?_, h.value_eq⟩
  rw [h.mem_iff, List.mem_cons]
  refine and_congr_left fun hm ↦ (or_iff_right_of_imp ?_).symm
  rintro rfl
  exact hn.resolve_right (Nat.not_lt.2 hm)

theorem snd_gap (h : g.Remembers asked) (n : Nat) : (g.gap n).2.Remembers (n :: asked) := by
  rw [gap]
  split
  case h_1 v hv =>
    have hn : n ∈ g.known.map Prod.fst := by
      by_contra hn
      rw [lookup_eq_none_iff.2 hn] at hv
      cases hv
    exact h.cons_of_or (.inl ((h.mem_iff n).1 hn).1)
  case h_2 hv =>
    split
    case isTrue hlimit =>
      refine ⟨List.nodup_cons.2 ⟨lookup_eq_none_iff.1 hv, h.nodup⟩, fun m ↦ ?_, fun m v hv ↦ ?_⟩
      · rw [List.map_cons, List.mem_cons, List.mem_cons, h.mem_iff, or_and_right]
        refine or_congr_left (iff_self_and.2 ?_)
        rintro rfl
        exact hlimit
      · rcases List.mem_cons.1 hv with heq | hv
        · obtain ⟨rfl, rfl⟩ := Prod.mk.inj heq
          rfl
        · exact h.value_eq m v hv
    case isFalse hlimit => exact h.cons_of_or (.inr (Nat.not_le.1 hlimit))

/-- The gaps that are remembered can be counted without looking at them. -/
theorem size_eq (h : g.Remembers asked) :
    g.size = (asked.toFinset.filter (· ≤ g.limit)).card := by
  have hkeys : (g.known.map Prod.fst).toFinset = asked.toFinset.filter (· ≤ g.limit) := by
    ext n
    rw [List.mem_toFinset, h.mem_iff, Finset.mem_filter, List.mem_toFinset]
  rw [← hkeys, List.toFinset_card_of_nodup h.nodup, List.length_map, size]

end Remembers

end ArcGaps

/-! ### Calls -/

namespace Grower

/-- A call of one of the operations that use a grower. -/
inductive Call where
  | arcGap (distance : Int) (segments : Nat)
  | grow (r : Region) (distance : Int) (segments : Nat)
  | isNear (r : Region) (p : Point) (clearance : Int)

/-- What a call gives back. -/
inductive Answer where
  | gap (value : Float)
  | region (r : Region)
  | near (holds : Bool)

/-- What is seen of a call: the request that it makes to the clipper, if any, and its answer. -/
structure Outcome where
  request? : Option ClipRequest
  answer : Answer

/-- The request that a call makes to the clipper. -/
def Call.request? (g : Grower) : Call → Option ClipRequest
  | .arcGap _ _ => none
  | .grow r distance segments => some (g.growRequest r distance segments).1
  | .isNear r _ clearance => (g.nearRequest? r clearance).map Prod.fst

/-- The answer to a call, and the grower after it. -/
def Call.run (clip : Clipper) (g : Grower) : Call → Answer × Grower
  | .arcGap distance segments => (g.arcGap distance segments).map .gap id
  | .grow r distance segments => (g.grow clip r distance segments).map .region id
  | .isNear r p clearance => (g.isNear clip r p clearance).map .near id

/-- What is seen of a call on a grower. -/
def Call.outcome (clip : Clipper) (g : Grower) (c : Call) : Outcome :=
  ⟨c.request? g, (c.run clip g).1⟩

/-- The outcomes of a series of calls on one grower, and the grower after them. -/
def runAll (clip : Clipper) (g : Grower) : List Call → List Outcome × Grower
  | [] => ([], g)
  | c :: calls =>
    let (outcomes, g') := runAll clip (c.run clip g).2 calls
    (c.outcome clip g :: outcomes, g')

/-- The number of segments whose gap a call asks for. Growing by zero asks for none, and neither
does a question of nearness without a positive clearance. -/
def Call.segments? (s : GrowthSettings) : Call → Option Nat
  | .arcGap _ segments => some (s.raise segments)
  | .grow _ distance segments => if distance = 0 then none else some (s.raise segments)
  | .isNear _ _ clearance => if 0 < clearance then some (s.raise s.probeSegments) else none

/-- The grower after the gap of a number of segments has been asked for, or none. -/
def askedFor (g : Grower) : Option Nat → Grower
  | some n => { g with gaps := (g.gaps.gap n).2 }
  | none => g

variable {clip : Clipper} {g g' : Grower} {s : GrowthSettings} {asked asked' : List Nat}

theorem snd_growRequest (g : Grower) (r : Region) (distance : Int) (segments : Nat) :
    (g.growRequest r distance segments).2 =
      g.askedFor (if distance = 0 then none else some (g.settings.raise segments)) := by
  rw [growRequest]
  split <;> rfl

/-- A question of nearness is answered from the grown region if the clearance is positive. -/
theorem isNear_eq (clip : Clipper) (g : Grower) (r : Region) (p : Point) (clearance : Int) :
    g.isNear clip r p clearance =
      if 0 < clearance then
        (g.grow clip r clearance g.settings.probeSegments).map (·.contains p) id
      else (r.contains p, g) := by
  rw [isNear, nearRequest?]
  by_cases h : clearance ≤ 0
  · rw [if_pos h, if_neg (Int.not_lt.2 h)]
  · rw [if_neg h, if_pos (Int.not_le.1 h)]
    rfl

/-- **What a call does to the grower**: no more than to ask for one gap. -/
theorem Call.snd_run (clip : Clipper) (g : Grower) (c : Call) :
    (c.run clip g).2 = g.askedFor (c.segments? g.settings) := by
  cases c with
  | arcGap distance segments => rfl
  | grow r distance segments => exact g.snd_growRequest r distance segments
  | isNear r p clearance =>
    rw [run, isNear_eq, segments?]
    split
    case isTrue h => exact (g.snd_growRequest r clearance _).trans (by rw [if_neg h.ne'])
    case isFalse => rfl

/-- The clipper takes part in a call through its reply to the request alone. -/
theorem Call.run_congr {other : Clipper} {c : Call}
    (h : ∀ q ∈ c.request? g, clip q = other q) : c.run clip g = c.run other g := by
  cases c with
  | arcGap distance segments => rfl
  | grow r distance segments =>
    have hreply := h _ rfl
    rw [run, run, Grower.grow, Grower.grow]
    simp only [hreply]
  | isNear r p clearance =>
    rw [request?] at h
    rw [run, run, Grower.isNear, Grower.isNear]
    rcases hq : g.nearRequest? r clearance with - | ⟨q, g'⟩
    · rfl
    · have hreply : clip q = other q := h q (by rw [hq]; rfl)
      simp only [hreply]

/-- A grower with the given settings that has been asked for the gaps of some numbers of
segments. -/
structure Remembers (g : Grower) (s : GrowthSettings) (asked : List Nat) : Prop where
  settings_eq : g.settings = s
  limit_eq : g.gaps.limit = s.rememberedSegments
  gaps : g.gaps.Remembers asked

theorem remembers_ofSettings (s : GrowthSettings) : (ofSettings s).Remembers s [] :=
  ⟨rfl, rfl, ArcGaps.remembers_empty _⟩

namespace Remembers

theorem askedFor (h : g.Remembers s asked) (n? : Option Nat) :
    (g.askedFor n?).Remembers s (n?.toList ++ asked) := by
  rcases n? with - | n
  · exact h
  · exact ⟨h.settings_eq, (ArcGaps.limit_gap _ n).trans h.limit_eq, h.gaps.snd_gap n⟩

/-- The memory does not show in the gap of an arc. -/
theorem fst_arcGap (h : g.Remembers s asked) (distance : Int) (segments : Nat) :
    (g.arcGap distance segments).1 =
      (Float.ofInt distance).abs * unitArcGap (s.raise segments) := by
  rw [← h.settings_eq, ← h.gaps.fst_gap]
  rfl

/-- The memory does not show in the request to grow a region. -/
theorem fst_growRequest (h : g.Remembers s asked) (h' : g'.Remembers s asked') (r : Region)
    (distance : Int) (segments : Nat) :
    (g.growRequest r distance segments).1 = (g'.growRequest r distance segments).1 := by
  rw [growRequest, growRequest]
  split
  case isTrue => rfl
  case isFalse => simp only [h.fst_arcGap, h'.fst_arcGap]

theorem fst_grow (h : g.Remembers s asked) (h' : g'.Remembers s asked') (r : Region)
    (distance : Int) (segments : Nat) :
    (g.grow clip r distance segments).1 = (g'.grow clip r distance segments).1 :=
  congrArg (fun q ↦ Region.ofAnswer .plain (clip q)) (h.fst_growRequest h' r distance segments)

theorem request?_eq (h : g.Remembers s asked) (h' : g'.Remembers s asked') (c : Call) :
    c.request? g = c.request? g' := by
  cases c with
  | arcGap distance segments => rfl
  | grow r distance segments => exact congrArg some (h.fst_growRequest h' r distance segments)
  | isNear r p clearance =>
    rw [Call.request?, Call.request?, nearRequest?, nearRequest?, h.settings_eq, h'.settings_eq]
    split
    case isTrue => rfl
    case isFalse => exact congrArg some (h.fst_growRequest h' r clearance _)

theorem answer_eq (h : g.Remembers s asked) (h' : g'.Remembers s asked') (c : Call) :
    (c.run clip g).1 = (c.run clip g').1 := by
  cases c with
  | arcGap distance segments =>
    exact congrArg Answer.gap ((h.fst_arcGap _ _).trans (h'.fst_arcGap _ _).symm)
  | grow r distance segments => exact congrArg Answer.region (h.fst_grow h' r distance segments)
  | isNear r p clearance =>
    rw [Call.run, Call.run, isNear_eq, isNear_eq, h.settings_eq, h'.settings_eq]
    split
    case isTrue => exact congrArg (Answer.near <| ·.contains p) (h.fst_grow h' r clearance _)
    case isFalse => rfl

/-- **The memory does not show in an outcome**: two growers with the same settings give the same
one. -/
theorem outcome_eq (h : g.Remembers s asked) (h' : g'.Remembers s asked') (c : Call) :
    c.outcome clip g = c.outcome clip g' := by
  rw [Call.outcome, Call.outcome, h.request?_eq h', h.answer_eq h']

/-- A call keeps the memory in order. -/
theorem snd_run (h : g.Remembers s asked) (c : Call) :
    (c.run clip g).2.Remembers s ((c.segments? s).toList ++ asked) := by
  rw [Call.snd_run, h.settings_eq]
  exact h.askedFor _

/-- **A series of calls** on a grower has the outcomes of its calls on a new one, and what it asks
for is remembered. -/
theorem runAll (h : g.Remembers s asked) (clip : Clipper) (calls : List Call) :
    (runAll clip g calls).1 = calls.map (Call.outcome clip (ofSettings s)) ∧
      (runAll clip g calls).2.Remembers s
        ((calls.filterMap (Call.segments? s)).reverse ++ asked) := by
  induction calls generalizing g asked with
  | nil => exact ⟨rfl, h⟩
  | cons c calls ih =>
    obtain ⟨houtcomes, hmemory⟩ := ih (h.snd_run c)
    refine ⟨congrArg₂ List.cons (h.outcome_eq (remembers_ofSettings s) c) houtcomes, ?_⟩
    rw [List.filterMap_cons]
    rcases hn : c.segments? s with - | n
    · rwa [hn] at hmemory
    · rw [hn] at hmemory
      rwa [List.reverse_cons, List.append_assoc]

end Remembers

/-- **The memory of a grower does not show.** In a series of calls on one grower, each call makes
the request to the clipper and gives the answer that it would make and give on a new grower with the
same settings. In the end as many gaps are remembered as there are numbers of segments, raised to
the least one allowed and not above the limit, in the calls that ask for a gap. -/
theorem runAll_ofSettings (clip : Clipper) (s : GrowthSettings) (calls : List Call) :
    (runAll clip (ofSettings s) calls).1 = calls.map (Call.outcome clip (ofSettings s)) ∧
      (runAll clip (ofSettings s) calls).2.gaps.size =
        ((calls.filterMap (Call.segments? s)).toFinset.filter (· ≤ s.rememberedSegments)).card := by
  obtain ⟨houtcomes, hmemory⟩ := (remembers_ofSettings s).runAll clip calls
  refine ⟨houtcomes, ?_⟩
  rw [hmemory.gaps.size_eq, hmemory.limit_eq, List.append_nil, List.toFinset_reverse]

/-- Four and six segments are the same number, and seventy are too many to be remembered. -/
example : (runAll (fun _ ↦ []) standard [.arcGap 10 4, .isNear .empty ⟨0, 0⟩ 0, .arcGap (-20) 6,
    .grow .empty 5 32, .arcGap 5 70, .grow .empty 0 16]).2.gaps.size = 2 := by
  rfl

end Grower

end GridGeometry
