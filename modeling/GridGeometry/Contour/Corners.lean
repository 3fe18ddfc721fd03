import GridGeometry.Angle
import GridGeometry.Contour.Basic

/-!
# Cut and rounded corners

Every vertex of a contour can be replaced by a straight cut (a chamfer) or by a polygonal arc that
touches both adjacent edges (a fillet). At most half of an edge is used up from either end. A vertex
where an adjacent edge has length zero stays as it is.

The pieces that replace the vertices depend on the vertex and its two neighbours only. They are
computed corner by corner, strung together, and freed of repeated vertices.
-/

namespace GridGeometry

/-- How the corners of a contour are replaced. -/
inductive CornerStyle where
  /-- A straight cut that removes `distance` from both adjacent edges. -/
  | chamfer (distance : Nat)
  /-- An arc of the given radius, in steps of which `segments` make a full circle. -/
  | fillet (radius segments : Nat)
deriving DecidableEq, Repr

/-- A vertex with its two neighbours. -/
structure Corner where
  previous : Point
  vertex : Point
  next : Point
deriving DecidableEq, Repr

namespace Corner

/-- The edge back to the previous vertex. -/
def back (c : Corner) : Vector := c.previous.toVector - c.vertex.toVector

/-- The edge on to the next vertex. -/
def ahead (c : Corner) : Vector := c.next.toVector - c.vertex.toVector

/-- The two ends of the straight cut. -/
def chamfer (c : Corner) (distance : Float) : Except Fault (List Point) := do
  let a := c.back
  let b := c.ahead
  let lengthA := a.length
  let lengthB := b.length
  let distance := min (min distance (0.5 * lengthA)) (0.5 * lengthB)
  let first ← c.vertex.add (.ofVector ⟨distance * a.x / lengthA, distance * a.y / lengthA⟩)
  let second ← c.vertex.add (.ofVector ⟨distance * b.x / lengthB, distance * b.y / lengthB⟩)
  return [first, second]

/-- The points of the arc. A corner whose edges run on straight or double back has no arc and stays
as it is. -/
def fillet (c : Corner) (radius : Float) (segments : Nat) : List Point :=
  let a := c.back
  let b := c.ahead
  let lengthA := a.length
  let lengthB := b.length
  let cosine := a.dot b / (lengthA * lengthB)
  -- The radius is this many times the part of each edge that the arc replaces.
  let ratio := (2.0 / (1.0 + cosine) - 1.0).sqrt
  if !ratio.isFinite || ratio == 0.0 then [c.vertex]
  else
    let radius := min (min radius (0.5 * lengthA * ratio)) (0.5 * lengthB * ratio)
    let v := c.vertex.toVector
    let unitA := a.scale (1.0 / lengthA)
    let unitB := b.scale (1.0 / lengthB)
    let bisector := unitA + unitB
    let center := v + bisector.scale (radius / (0.5 * (1.0 - cosine)).sqrt / bisector.length)
    let tangent := radius / ratio
    let start := v + unitA.scale tangent - center
    let stop := v + unitB.scale tangent - center
    let arcAngle := angleOfCosine (start.dot stop / (radius * radius))
    let steps := (Float.ofNat segments * arcAngle / (2.0 * halfTurn)).ceil.toUInt32.toNat
    let startAngle := (-start.y).atan2 start.x
    let step := arcAngle / Float.ofNat steps
    -- A reflex corner is swept the other way.
    let step := if a.cross b <= 0.0 then -step else step
    .ofVector (center + start) :: (List.range' 1 steps).map fun j ↦
      let angle := startAngle + Float.ofNat j * step
      .ofVector ⟨center.x + angle.cos * radius, center.y - angle.sin * radius⟩

/-- The points that replace the corner. -/
def piece (style : CornerStyle) (c : Corner) : Except Fault (List Point) :=
  if c.previous = c.vertex ∨ c.next = c.vertex then .ok [c.vertex]
  else
    match style with
    | .chamfer distance => c.chamfer (Float.ofNat distance)
    | .fillet radius segments => .ok (c.fillet (Float.ofNat radius) segments)

end Corner

namespace Contour

/-- The vertices moved one place on, so that each place holds the vertex that preceded it. -/
def rotateBack (points : List Point) : List Point :=
  match points.getLast? with
  | some p => p :: points.dropLast
  | none => []

/-- The vertices moved one place back, so that each place holds the vertex that followed it. -/
def rotateAhead : List Point → List Point
  | [] => []
  | p :: l => l ++ [p]

/-- The corners of the closed cycle through the vertices. -/
def corners (points : List Point) : List Corner :=
  List.zipWith (fun previous (vertex, next) ↦ ⟨previous, vertex, next⟩) (rotateBack points)
    (points.zip (rotateAhead points))

/-- The closed contour with every corner replaced. -/
def replaceCorners (style : CornerStyle) (c : Contour) : Except Fault Contour := do
  let pieces ← (corners c.points).mapM (Corner.piece style)
  return (ofPoints pieces.flatten).withoutNullEdges

end Contour

end GridGeometry
