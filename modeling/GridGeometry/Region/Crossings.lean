import GridGeometry.Region.Cursor

/-!
# Touching and crossing edges

The edges of one polygon, outline and holes together, are compared pair by pair. Two edges that
follow each other in a contour meet at their common vertex and are not reported. All other pairs
that share a point are, also when they only touch.
-/

namespace GridGeometry

/-- Two edges of one polygon that touch or cross, each named by the vertex where it starts. -/
structure Crossing where
  first : VertexAddress
  second : VertexAddress
deriving DecidableEq, Repr

/-- All pairs of an element of the list with a later one, in order. -/
def laterPairs {α : Type} : List α → List (α × α)
  | [] => []
  | a :: l => l.map (a, ·) ++ laterPairs l

namespace Polygon

/-- Whether the edges at two addresses, the first of which comes earlier, follow each other in a
contour of the polygon. -/
def Adjacent (p : Polygon) (a b : VertexAddress) : Prop :=
  a.contour = b.contour ∧
    (b.vertex = a.vertex + 1 ∨
      a.vertex = 0 ∧ some (b.vertex + 1) = (p.contours[a.contour]?).map Contour.size)

instance (p : Polygon) (a b : VertexAddress) : Decidable (p.Adjacent a b) :=
  inferInstanceAs (Decidable (a.contour = b.contour ∧ (b.vertex = a.vertex + 1 ∨
    a.vertex = 0 ∧ some (b.vertex + 1) = (p.contours[a.contour]?).map Contour.size)))

/-- Whether a pair of edges is reported. -/
def crosses (p : Polygon) : (VertexAddress × Segment) × (VertexAddress × Segment) → Bool
  | ((a, s), (b, t)) => !decide (p.Adjacent a b) && s.meets t

end Polygon

namespace Region

/-- The pairs of edges to compare in one polygon of the region. -/
def edgePairs (r : Region) (index : Nat) :
    List ((VertexAddress × Segment) × (VertexAddress × Segment)) :=
  laterPairs ((r.walk (index + 1) true).edges index)

/-- The touching and crossing edges, polygon by polygon. -/
def crossings (r : Region) : List Crossing :=
  r.polygons.zipIdx.flatMap fun (p, index) ↦
    ((r.edgePairs index).filter p.crosses).map fun ((a, _), (b, _)) ↦ ⟨a, b⟩

/-- Whether any edges touch or cross. The search ends at the first such pair. -/
def hasCrossings (r : Region) : Bool :=
  r.polygons.zipIdx.any fun (p, index) ↦ (r.edgePairs index).any p.crosses

end Region

end GridGeometry
