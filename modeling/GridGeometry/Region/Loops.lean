import GridGeometry.Contour.Inside
import GridGeometry.Contour.Loops
import GridGeometry.Region.Basic

/-!
# Regions of simple loops

Contours that touch themselves at a vertex are cut into simple loops, and polygons are built anew
from the loops of all contours: those that run counter-clockwise become outlines, and each one that
runs clockwise becomes a hole of the smallest outline around it. Loops without area disappear, and
so do holes that no outline surrounds.
-/

namespace GridGeometry

/-- Whether an outline surrounds a hole. The first vertex of the hole that is not on an edge of the
outline decides, or the first vertex if there is none. -/
def Contour.surrounds (outline hole : Contour) : Bool :=
  match hole.points.find? (fun p ↦ !outline.touches p) <|> hole.points.head? with
  | some p => outline.contains p
  | none => false

/-- The place of the outline that a hole belongs to: of those that enclose it one of least area, the
first of these. -/
def ownerIndex? (outlines : List Contour) (hole : Contour) : Option Nat :=
  ((outlines.zipIdx.filter fun (o, _) ↦ o.surrounds hole).minOn? fun (o, _) ↦ o.doubledArea).map
    Prod.snd

namespace Region

/-- The simple loops of all contours in order. -/
def loops (r : Region) : List Contour :=
  r.polygons.flatMap fun p ↦ p.contours.flatMap Contour.loops

/-- The region whose polygons are built from the simple loops of all contours. -/
def cutIntoLoops (r : Region) : Region :=
  let outlines := r.loops.filter fun c ↦ 0 < c.doubledArea
  let holes := r.loops.filter fun c ↦ c.doubledArea < 0
  let owned := holes.map fun c ↦ (ownerIndex? outlines c, c)
  ⟨outlines.zipIdx.map fun (o, i) ↦
    ⟨o, owned.filterMap fun (owner, c) ↦ if owner = some i then some c else none⟩⟩

end Region

end GridGeometry
