import GridGeometry.Angle
import GridGeometry.Arrangement.Combine

/-!
# Growing and shrinking by arrangement

The boundary of each path is moved to its side by a distance and joined up with arcs. The curve that
results may run through itself and, around tight corners, the wrong way round; filling it by the
winding of clockwise contours leaves what belongs to the grown path. Several paths are grown one by
one, holes by the opposite distance, and laid over each other in the end.

The curves are computed with floating-point numbers and put onto a grid of their own, which is as
fine as the extent of all paths allows.

## Main definitions

* `Arrangement.FineGrid`: the grid of the curves.
* `Arrangement.Side`, `Arrangement.join`: a moved edge, and what joins two of them.
* `Arrangement.curve`: the curve beside a path.
* `Arrangement.grow`: the shapes of a grown region.
* `Arrangement.clipper`: the clipper that works on arrangements.
-/

namespace GridGeometry.Arrangement

/-! ### The fine grid -/

/-- A grid around an origin whose unit is 2 to the power of minus `exponent`. -/
structure FineGrid where
  origin : Vector
  exponent : Int
deriving Repr, Inhabited

namespace FineGrid

/-- The finest grid for curves at most `distance` away from the given points, of which there is at
least one. -/
def ofPoints (first : Vector) (points : List Vector) (distance : Float) : FineGrid :=
  let margin := (1.1 * distance).abs + (1.1 * -distance).abs
  let lowX := points.foldl (fun m p ↦ min m p.x) first.x - margin
  let highX := points.foldl (fun m p ↦ max m p.x) first.x + margin
  let lowY := points.foldl (fun m p ↦ min m p.y) first.y - margin
  let highY := points.foldl (fun m p ↦ max m p.y) first.y + margin
  let a := (highX - lowX) * 0.5
  let b := (highY - lowY) * 0.5
  ⟨⟨lowX + a, lowY + b⟩, 29 - (max a b).log2.round.toInt64.toInt⟩

/-- The point of the grid nearest to `v`. -/
def nearest (g : FineGrid) (v : Vector) : Point :=
  let unit := (1.0 : Float).scaleB g.exponent
  ⟨((v.x - g.origin.x) * unit).round.toInt64.toInt, ((v.y - g.origin.y) * unit).round.toInt64.toInt⟩

/-- The position of a point of the grid. -/
def position (g : FineGrid) (p : Point) : Vector :=
  let unit := (1.0 : Float).scaleB (-g.exponent)
  ⟨Float.ofInt p.x * unit + g.origin.x, Float.ofInt p.y * unit + g.origin.y⟩

end FineGrid

/-! ### Curves beside a path -/

/-- An edge of a path moved to its side. -/
structure Side where
  /-- The direction of the edge, of length one. -/
  direction : Vector
  /-- The end of the edge itself. -/
  stop : Vector
  /-- Where the moved edge starts. -/
  first : Vector
  /-- Where the moved edge ends. -/
  last : Vector
deriving Repr, Inhabited

/-- The edge from `p` to `q` moved by `radius` to its left. -/
def Side.ofEnds (radius : Float) (p q : Vector) : Side :=
  let v := q - p
  let scale := 1.0 / (v.x * v.x + v.y * v.y).sqrt
  let d : Vector := ⟨v.x * scale, v.y * scale⟩
  let t : Vector := ⟨radius * -d.y, radius * d.x⟩
  ⟨d, q, p + t, q + t⟩

/-- The vector turned by an angle. -/
def turned (angle : Float) (v : Vector) : Vector :=
  ⟨angle.cos * v.x + -angle.sin * v.y, angle.sin * v.x + angle.cos * v.y⟩

/-- A weight for an edge of a curve that carries the boundary of the result. -/
def boldWeight : Weight := ⟨1, 0, true⟩

/-- A weight for an edge that only closes a curve. -/
def faintWeight : Weight := ⟨1, 0, false⟩

/-- The edges of a chain of points, without those whose ends coincide. -/
def chainEdges (w : Weight) (p : Point) : List Point → List Edge
  | [] => []
  | q :: rest => if q = p then chainEdges w p rest else .ofEnds p q w :: chainEdges w q rest

/-- The points of an arc around `center`, `steps` of them, after the one in the direction `v`. -/
def arcPoints (g : FineGrid) (center : Vector) (radius step : Float) (v : Vector) :
    Nat → List Point
  | 0 => []
  | steps + 1 =>
    let v := turned step v
    g.nearest ⟨center.x + radius * v.x, center.y + radius * v.y⟩ ::
      arcPoints g center radius step v steps

/-- The edges that join a moved edge to the next one: an arc in steps of about `ratio` where a gap
opens and the corner is sharper than one step, and otherwise a faint edge. -/
def join (g : FineGrid) (radius ratio : Float) (s t : Side) : List Edge :=
  let side := s.direction.x * t.direction.y - s.direction.y * t.direction.x
  let cosine := s.direction.x * t.direction.x + s.direction.y * t.direction.y
  if decide (side >= 0.0) == decide (radius >= 0.0) || decide (ratio.cos < cosine) then
    chainEdges faintWeight (g.nearest s.last) [g.nearest t.first]
  else
    let angle := cosine.acos
    let count := (angle * (1.0 / ratio)).round
    let step := angle / count
    let step := (if radius >= 0.0 then -1.0 else 1.0) * step
    let middle := arcPoints g s.stop radius step ⟨-s.direction.y, s.direction.x⟩
      (count.toUInt64.toNat - 1)
    chainEdges boldWeight (g.nearest s.last) (middle ++ [g.nearest t.first])

/-- The points of a path that differ on the grid from the one kept before them; the first one is
compared with `before`. -/
def distinctOn (g : FineGrid) (before : Vector) : List Vector → List Vector
  | [] => []
  | p :: rest =>
    if g.nearest p = g.nearest before then distinctOn g before rest
    else p :: distinctOn g p rest

/-- The edge that a moved edge contributes itself. -/
def Side.edge (g : FineGrid) (s : Side) : Edge :=
  .ofEnds (g.nearest s.first) (g.nearest s.last) boldWeight

/-- The closed curve at the distance `radius` to the left of a path. -/
def curve (g : FineGrid) (radius ratio : Float) (path : List Vector) : List Edge :=
  match path.getLast? with
  | none => []
  | some last =>
    let points := distinctOn g last path
    match List.zipWith (Side.ofEnds radius) (last :: points) points with
    | [] => []
    | s :: sides =>
      let pairs := (s :: sides).zip (sides ++ [s])
      pairs.flatMap fun (s, t) ↦ s.edge g :: join g radius ratio s t

/-! ### Regions -/

/-- Twice the area of a path on the grid, positive when it runs clockwise. It is reckoned in signed
words of 64 bits: what is out of their range comes back into it from the other end. -/
def clockwiseArea (g : FineGrid) (path : List Vector) : Int :=
  (-Contour.fanArea (path.map g.nearest)).bmod 18446744073709551616

/-- The shapes that a single path grows to. -/
def growPath (g : FineGrid) (radius ratio : Float) (leastArea : Nat) (path : List Vector) :
    List Shape :=
  nest (solve .clockwise .subject leastArea (curve g radius ratio path))

/-- The contours that one of several paths grows to. A path without area has none. A hole is grown
as its reversal by the opposite distance. -/
def growContours (g : FineGrid) (radius ratio : Float) (path : List Vector) : List ClosedPath :=
  let area := clockwiseArea g path
  if area.natAbs ≤ 1 then []
  else if 0 < area then (growPath g radius ratio 0 path).flatten
  else ((growPath g (-radius) ratio 0 path.reverse).flatten).map List.reverse

/-- The shapes of a region grown on the fine grid. -/
def growOn (g : FineGrid) (radius ratio : Float) : List (List Vector) → List Shape
  | [path] =>
    if clockwiseArea g path ≤ 1 then [] else growPath g radius ratio 1 path
  | paths =>
    nest (solve .clockwise .subject 1
      (pathEdges .ofSubject (paths.flatMap (growContours g radius ratio))))

/-- The step of an arc for which `angle` is asked: not less than a hundredth of a half turn and not
more than a quarter of it, which is also the step if no number is asked for. -/
def arcStep (angle : Float) : Float :=
  if angle < 0.01 * halfTurn then 0.01 * halfTurn
  else if angle < 0.25 * halfTurn then angle
  else 0.25 * halfTurn

/-- The shapes of a region grown by `distance`, with arcs in steps of about `angle`. -/
def grow (paths : List ClosedPath) (distance angle : Float) : List Shape :=
  let ratio := arcStep angle
  -- Curves expect outlines to run clockwise.
  let paths := paths.map fun path ↦ (path.map Point.toVector).reverse
  match paths.flatten with
  | [] => []
  | first :: points =>
    let g := FineGrid.ofPoints first points distance
    (growOn g distance ratio paths).map fun shape ↦
      shape.map fun path ↦ path.map fun p ↦ .ofVector (g.position p)

/-- The clipper that works on arrangements. -/
def clipper : Clipper
  | .combine op subject clip => combine op subject clip
  | .grow paths distance angle => grow paths distance angle

end GridGeometry.Arrangement
