import GridGeometry.Arrangement.Fill
import GridGeometry.Arrangement.Turns

/-!
# Tracing contours

The boundary edges of a result are strung together to closed contours. A contour starts at the first
edge that is left and takes, at every point it comes to, the sharpest turn: counter-clockwise from
the way back for an outline, clockwise for a hole. Outlines come out clockwise and holes
counter-clockwise. Of each contour only the turns are kept.

## Main definitions

* `Arrangement.walk`: the way around one contour.
* `Arrangement.traceAll`: all contours as they have been walked.
* `Arrangement.Contours`, `Arrangement.trace`: all outlines and holes.
-/

namespace GridGeometry.Arrangement

/-! ### Turns -/

/-- The end of a link that is not `p`, or `none` if neither is `p`. -/
def Link.otherEnd? (l : Link) (p : Point) : Option Point :=
  if l.low = p then some l.high else if l.high = p then some l.low else none

/-- How far one turns at `p` from the direction of `back` to that of `q`, counter-clockwise or
clockwise: less than half of a full turn, half, more than half, or a full turn. -/
def turnClass (clockwise : Bool) (p back q : Point) : Nat :=
  let side := if clockwise then Point.cross p q back else Point.cross p back q
  let forward := (back.x - p.x) * (q.x - p.x) + (back.y - p.y) * (q.y - p.y)
  if 0 < side then 0 else if side < 0 then 2 else if forward < 0 then 1 else 3

/-- Whether the turn at `p` from `back` to `q` is strictly less than the one to `r`. -/
def turnsLess (clockwise : Bool) (p back q r : Point) : Bool :=
  let m := turnClass clockwise p back q
  let n := turnClass clockwise p back r
  let side := if clockwise then Point.cross p r q else Point.cross p q r
  decide (m < n ∨ m = n ∧ 0 < side)

/-- The link to follow at `p`, with its other end: the first one that is reached when turning away
from `back`. -/
def nextLink? (clockwise : Bool) (p back : Point) (ls : List Link) : Option (Link × Point) :=
  let options := ls.filterMap fun l ↦ (l.otherEnd? p).map (l, ·)
  options.foldl
    (fun best option ↦ match best with
      | some b => if turnsLess clockwise p back option.2 b.2 then some option else some b
      | none => some option)
    none

/-! ### One contour -/

/-- The points from `p` on around a contour that ends at `goal`, whether a bold link is used on the
way, and the links that are left. Every step uses up a link. -/
def walk (clockwise : Bool) (goal back p : Point) (ls : List Link) :
    List Point × Bool × List Link :=
  if p = goal then ([], false, ls)
  else
    match nextLink? clockwise p back ls with
    | none => ([p], false, ls)
    | some (l, q) =>
      if _h : l ∈ ls then
        let (points, bold, rest) := walk clockwise goal p q (ls.erase l)
        (p :: points, l.bold || bold, rest)
      else ([p], false, ls)
termination_by ls.length
decreasing_by
  have := List.length_pos_of_mem _h
  rw [List.length_erase_of_mem _h]
  omega

/-- The links that are left after a walk were there before it. -/
theorem length_walk_le (clockwise : Bool) (goal back p : Point) (ls : List Link) :
    (walk clockwise goal back p ls).2.2.length ≤ ls.length := by
  fun_induction walk clockwise goal back p ls with
  | case1 => simp
  | case2 => simp
  | case3 back p ls _ l q _ hl points bold rest hw ih =>
    have := List.length_erase_of_mem hl
    simp only [hw] at ih
    simp only
    omega
  | case4 => simp

/-! ### All contours -/

/-- A contour as it has been walked. -/
structure Traced where
  points : List Point
  isHole : Bool
  /-- Whether a bold link was used. -/
  bold : Bool
deriving Repr

/-- The highest of the links that start at the same point as `l`. -/
def topmostAt (l : Link) (ls : List Link) : Link :=
  (ls.filter fun m ↦ m.low == l.low).foldl
    (fun best m ↦ if 0 < Point.cross l.low best.high m.high then m else best) l

/-- The highest link at a point is one of the links. -/
theorem topmostAt_mem {l : Link} {ls : List Link} (h : l ∈ ls) : topmostAt l ls ∈ ls := by
  unfold topmostAt
  have hsub : ∀ m ∈ ls.filter fun m ↦ m.low == l.low, m ∈ ls := fun m hm ↦ (List.mem_filter.1 hm).1
  generalize ls.filter (fun m ↦ m.low == l.low) = options at hsub
  suffices ∀ best ∈ ls, options.foldl
      (fun best m ↦ if 0 < Point.cross l.low best.high m.high then m else best) best ∈ ls from
    this l h
  induction options with
  | nil => exact fun best hbest ↦ hbest
  | cons m options ih =>
    intro best hbest
    rw [List.foldl_cons]
    refine ih (fun k hk ↦ hsub k (by simp [hk])) _ ?_
    split
    · exact hsub m (by simp)
    · exact hbest

/-- The contour that starts with the highest link at the lower end of `l`, and the links that are
left. If the inside is above that link, the contour is a hole and is walked to its lower end. -/
def traceOne (l : Link) (ls : List Link) : Traced × List Link :=
  let top := topmostAt l ls
  let isHole := top.insideAbove
  let start := if isHole then top.high else top.low
  let second := if isHole then top.low else top.high
  let (points, bold, rest) := walk isHole start start second (ls.erase top)
  (⟨start :: points, isHole, top.bold || bold⟩, rest)

/-- A contour uses up at least one link. -/
theorem length_traceOne_lt {l : Link} {ls : List Link} (h : l ∈ ls) :
    (traceOne l ls).2.length < ls.length := by
  have htop := List.length_erase_of_mem (topmostAt_mem h)
  have hpos := List.length_pos_of_mem h
  refine Nat.lt_of_le_of_lt (length_walk_le _ _ _ _ _) ?_
  omega

/-- All contours, each one starting at the first link that is left. -/
def traceAll (ls : List Link) : List Traced :=
  match _h : ls.head? with
  | none => []
  | some l => (traceOne l ls).1 :: traceAll (traceOne l ls).2
termination_by ls.length
decreasing_by exact length_traceOne_lt (List.mem_of_mem_head? _h)

/-- Whether a contour has three vertices and the least area asked for. -/
def isKept (leastArea : Nat) (points : List Point) : Bool :=
  decide (3 ≤ points.length ∧ leastArea ≤ (Contour.fanArea points).natAbs / 2)

/-- The contours of a result in the order in which they are found. -/
structure Contours where
  outlines : List (List Point)
  holes : List (List Point)
deriving DecidableEq, Repr, Inhabited

/-- The contours of a result that have a bold link and at least the given area. -/
def trace (leastArea : Nat) (ls : List Link) : Contours :=
  let found := (traceAll ls).filter Traced.bold
  let found := found.map fun t ↦ { t with points := turns t.points }
  let found := found.filter fun t ↦ isKept leastArea t.points
  ⟨(found.filter fun t ↦ !t.isHole).map Traced.points,
    (found.filter Traced.isHole).map Traced.points⟩

end GridGeometry.Arrangement
