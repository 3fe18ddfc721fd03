import GridGeometry.Angle
import GridGeometry.Region.Combine
import GridGeometry.Region.Inside

/-!
# Growing and shrinking

A region is grown or shrunk by a clipper that joins corners with polygonal arcs. The step of the
arcs follows from a number of segments for the full circle, through the largest gap between the
circle and the polygon. That gap, as a part of the radius, is computed once for each number of
segments and then remembered.

## Main definitions

* `GrowthSettings`: the constants.
* `ArcGaps`: the remembered gaps; `ArcGaps.gap` looks one up or computes it.
* `Grower`: settings and remembered gaps, which all operations take and return.
* `Grower.grow`, `Grower.isNear`: growing a region, and asking how far a point is from it.
-/

namespace GridGeometry

/-- The constants of growing and of questions of nearness. -/
structure GrowthSettings where
  /-- The least number of segments of a full circle. -/
  leastSegments : Nat
  /-- The number of segments of a full circle in questions of nearness. -/
  probeSegments : Nat
  /-- The greatest number of segments whose gap is remembered. -/
  rememberedSegments : Nat
deriving DecidableEq, Repr

namespace GrowthSettings

/-- The settings in use where none are given. -/
def standard : GrowthSettings := ⟨6, 8, 64⟩

/-- The number of segments, raised to the least one allowed. -/
def raise (s : GrowthSettings) (segments : Nat) : Nat := max segments s.leastSegments

end GrowthSettings

/-! ### Gaps of arcs -/

/-- The largest gap between a circle of radius one and the polygon of equal sides in it. -/
def unitArcGap (segments : Nat) : Float := 1.0 - (halfTurn / Float.ofNat segments).cos

/-- Gaps that have been computed, by number of segments. -/
structure ArcGaps where
  /-- The greatest number of segments that is remembered. -/
  limit : Nat
  /-- The remembered gaps, each number of segments at most once. -/
  known : List (Nat × Float)
deriving Repr

namespace ArcGaps

/-- Nothing remembered. -/
def empty (limit : Nat) : ArcGaps := ⟨limit, []⟩

/-- How many gaps are remembered. -/
def size (g : ArcGaps) : Nat := g.known.length

/-- The gap for a number of segments, and the memory after asking for it. -/
def gap (g : ArcGaps) (segments : Nat) : Float × ArcGaps :=
  match g.known.lookup segments with
  | some value => (value, g)
  | none =>
    let value := unitArcGap segments
    (value, if segments ≤ g.limit then { g with known := (segments, value) :: g.known } else g)

end ArcGaps

/-- The step of an arc of the given radius that leaves the given gap. -/
def stepAngle (radius gap : Float) : Float := 2.0 * angleOfCosine (1.0 - gap / radius)

/-! ### Growing -/

/-- Settings together with the gaps that have been computed under them. -/
structure Grower where
  settings : GrowthSettings
  gaps : ArcGaps
deriving Repr

namespace Grower

/-- A grower that remembers nothing yet. -/
def ofSettings (settings : GrowthSettings) : Grower :=
  ⟨settings, .empty settings.rememberedSegments⟩

/-- The grower in use where none is given. -/
def standard : Grower := ofSettings .standard

/-- The largest gap between an arc of radius `distance` and its polygon. -/
def arcGap (g : Grower) (distance : Int) (segments : Nat) : Float × Grower :=
  let (gap, gaps) := g.gaps.gap (g.settings.raise segments)
  ((Float.ofInt distance).abs * gap, { g with gaps })

/-- The request to grow a region by a distance. A distance of zero asks for a simplified region. -/
def growRequest (g : Grower) (r : Region) (distance : Int) (segments : Nat) :
    ClipRequest × Grower :=
  if distance = 0 then (r.combineRequest .union .empty, g)
  else
    let (gap, g) := g.arcGap distance segments
    let distance := Float.ofInt distance
    (.grow r.toPaths distance (stepAngle distance.abs gap), g)

/-- The region grown by a distance, or shrunk if that is negative. -/
def grow (clip : Clipper) (g : Grower) (r : Region) (distance : Int) (segments : Nat) :
    Region × Grower :=
  let (request, g) := g.growRequest r distance segments
  (.ofAnswer .plain (clip request), g)

/-- The request that a question of nearness needs: none unless the clearance is positive. -/
def nearRequest? (g : Grower) (r : Region) (clearance : Int) : Option (ClipRequest × Grower) :=
  if clearance ≤ 0 then none
  else some (g.growRequest r clearance g.settings.probeSegments)

/-- Whether `p` is in the region or within a positive clearance of it. -/
def isNear (clip : Clipper) (g : Grower) (r : Region) (p : Point) (clearance : Int) :
    Bool × Grower :=
  match g.nearRequest? r clearance with
  | none => (r.contains p, g)
  | some (request, g) => ((Region.ofAnswer .plain (clip request)).contains p, g)

end Grower

end GridGeometry
