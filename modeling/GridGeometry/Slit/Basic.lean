import GridGeometry.Slit.Ring

/-!
# Slits

A hole is joined to everything joined before by a horizontal slit that runs from the hole's leftmost
vertex to the left, up to the nearest joined edge at that height. That edge is split where the slit
arrives, and the slit is walked twice: once on the way in, then around the hole, and once on the way
out.

## Main definitions

* `Slit`: a slit with the edge that it splits.
* `RingTable.slit?`: the slit for a hole.
* `RingTable.cut`: the table after a slit is made.
-/

namespace GridGeometry

/-- A slit between a hole and what has been joined before. -/
structure Slit where
  /-- The place of the hole edge where the slit begins. -/
  hole : Nat
  /-- The vertex where the slit begins. -/
  start : Point
  /-- The place of the edge that is split. -/
  target : Nat
  /-- The edge that is split, as it was before. -/
  split : RingEdge
  /-- The point on that edge where the slit arrives. -/
  arrival : Point
deriving Repr

/-- The three edges that a slit adds: the rest of the split edge, the way in and the way out. The
first of them gets the place `base`. -/
def Slit.edges (s : Slit) (base : Nat) : List RingEdge :=
  [⟨s.arrival, s.split.stop, .joined, s.split.next⟩, ⟨s.arrival, s.start, .joined, s.hole⟩,
    ⟨s.start, s.arrival, .joined, base⟩]

namespace RingTable

/-- The joined edges that meet the height of `p` at or to the left of it, with their places and the
`x` coordinates where they do. -/
def edgesLeftOf (t : RingTable) (p : Point) : List (Nat × RingEdge × Int) :=
  t.edges.toList.zipIdx.filterMap fun (e, i) ↦
    if e.state = .joined ∧ e.Reaches p.y ∧ e.meetingX p.y ≤ p.x then some (i, e, e.meetingX p.y)
    else none

/-- The nearest of the edges to the left of `p`, the first of these. -/
def nearestLeftOf? (t : RingTable) (p : Point) : Option (Nat × RingEdge × Int) :=
  (t.edgesLeftOf p).minOn? fun (_, _, x) ↦ p.x - x

/-- The slit from the hole edge at place `hole`, which starts at `start`, if there is an edge for it
to arrive at. -/
def slit? (t : RingTable) (hole : Nat) (start : Point) : Option Slit :=
  (t.nearestLeftOf? start).map fun (target, split, x) ↦ ⟨hole, start, target, split, ⟨x, start.y⟩⟩

/-- The table with a slit made. The split edge ends where the slit arrives and is followed by the
way in, and the last edge of the hole is followed by the way out. -/
def cut (t : RingTable) (s : Slit) : RingTable :=
  let ring := t.ring s.hole
  let base := t.edges.size
  let edges := (t.edges ++ s.edges base).modify s.target
    ({ · with stop := s.arrival, next := base + 1 })
  let joined : RingTable := ⟨edges, t.entries, t.waiting - ring.length⟩
  let joined := joined.setStates .joined ring
  { joined with edges := joined.edges.modify (ring.getLastD s.hole) ({ · with next := base + 2 }) }

/-- The table with the hole through place `hole` given up. -/
def drop (t : RingTable) (hole : Nat) : RingTable :=
  let ring := t.ring hole
  { t with waiting := t.waiting - ring.length }.setStates .dropped ring

end RingTable

end GridGeometry
