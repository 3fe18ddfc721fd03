import GridGeometry.Slit.Basic

/-!
# Joining holes to their outline

A polygon with holes becomes a single contour that encloses the same area: each hole is joined by a
slit of no width. The holes are taken from left to right, so that a slit never runs into a hole that
is still to be joined. A hole without anything joined to its left, for instance one outside the
outline, is dropped.

## Main definitions

* `HoleFate`: what became of a hole.
* `RingTable.step?`: one hole is joined or dropped.
* `RingTable.joinAll`: all holes are.
* `joinHoles`: the contour that results.
-/

namespace GridGeometry

/-- What became of a hole. -/
inductive HoleFate where
  /-- The hole has been joined by a slit. -/
  | joined (s : Slit)
  /-- No slit was possible for the hole with an edge at the given place. -/
  | dropped (hole : Nat)
deriving Repr

namespace RingTable

/-- The next hole is joined or dropped. There is no next hole when no edge to begin at is left. -/
def step? (t : RingTable) : Option (RingTable × HoleFate) :=
  match t.nextHole? with
  | none => none
  | some (hole, start) =>
    match t.slit? hole start with
    | some s => some (t.cut s, .joined s)
    | none => some (t.drop hole, .dropped hole)

/-- A step leaves fewer edges waiting. -/
theorem waiting_lt_of_step? {t u : RingTable} {fate : HoleFate} (ht : 0 < t.waiting)
    (hs : t.step? = some (u, fate)) : u.waiting < t.waiting := by
  unfold step? at hs
  split at hs
  · simp at hs
  · split at hs <;> simp only [Option.some.injEq, Prod.mk.injEq] at hs <;> obtain ⟨rfl, _⟩ := hs
    · simp only [cut, setStates, ring, List.length_cons]
      omega
    · simp only [drop, setStates, ring, List.length_cons]
      omega

/-- Joins or drops holes until none is waiting, and lists what became of them. -/
def joinAll (t : RingTable) : RingTable × List HoleFate :=
  if _ht : 0 < t.waiting then
    match _hs : t.step? with
    | some (u, fate) =>
      let (last, fates) := u.joinAll
      (last, fate :: fates)
    | none => (t, [])
  else (t, [])
termination_by t.waiting
decreasing_by exact waiting_lt_of_step? _ht _hs

end RingTable

/-- The outline joined to its holes by slits. The contours are listed with the outline first; a lone
outline is returned as it is, and an empty one swallows its holes. -/
def joinHoles : List Contour → Contour
  | [] => .closedOf []
  | [outline] => outline
  | outline :: holes =>
    if outline.isEmpty then .closedOf []
    else .ofPoints ((RingTable.ofContours outline holes).joinAll.1.ringPoints 0)

end GridGeometry
