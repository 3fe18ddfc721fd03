import GridGeometry.Arrangement.Edge

/-!
# Splitting edges where they meet

Edges are cut until no two of them meet except at common ends. Where two edges cross off the grid,
the crossing point is rounded, which bends both edges and may create new crossings. Splitting
therefore goes round by round. A crossing point that falls close to an end of one of the two edges
is moved to that end, and what counts as close grows from round to round.

## Main definitions

* `Arrangement.crossPoint`: where two crossing edges meet, rounded to the grid.
* `Arrangement.cuts`: the cuts that a pair of edges needs.
* `Arrangement.Edge.pieces`: the pieces of an edge after its cuts.
* `Arrangement.split`: all rounds.
-/

namespace GridGeometry.Arrangement

/-! ### Crossing points -/

/-- The quotient of two natural numbers rounded to the nearest one, a half upward. A numerator of
more than 64 bits has its quotient rounded down. -/
def roundedQuotient (n d : Nat) : Nat :=
  if n < 18446744073709551616 ∧ (d + 1) / 2 ≤ n % d then n / d + 1 else n / d

/-- The point where the lines of two crossing edges meet, rounded to the grid. All of it is computed
relative to the lower end of the first edge. -/
def crossPoint (e f : Edge) : Point :=
  let o := e.low
  let a : Point := ⟨e.high.x - o.x, e.high.y - o.y⟩
  let b : Point := ⟨f.low.x - o.x, f.low.y - o.y⟩
  let c : Point := ⟨f.high.x - o.x, f.high.y - o.y⟩
  let dx := b.x - c.x
  let dy := b.y - c.y
  let area := b.x * c.y - b.y * c.x
  if a.x = 0 then ⟨o.x, o.y + area.tdiv dx⟩
  else if a.y = 0 then ⟨o.x + (-area).tdiv dy, o.y⟩
  else
    let divisor := a.y * dx - a.x * dy
    let sign := divisor.sign * area.sign
    let part (n : Int) : Int :=
      n.sign * sign * (roundedQuotient (n.natAbs * area.natAbs) divisor.natAbs : Nat)
    ⟨o.x + part a.x, o.y + part a.y⟩

/-! ### Cuts -/

/-- A place where an edge has to be cut. -/
structure Cut where
  /-- The place of the edge in the list of edges. -/
  edge : Nat
  point : Point
  /-- Whether the edges do not meet exactly in this point. -/
  rounded : Bool
deriving Repr

/-- Whether `p` lies between the ends of the edge in the order of points, for `p` on its line. -/
def Edge.strictlyBetween (e : Edge) (p : Point) : Bool := decide (e.low.Before p ∧ p.Before e.high)

/-- Whether the extents of two edges along `y` touch. -/
def touchAlongY (e f : Edge) : Bool :=
  decide (min e.low.y e.high.y ≤ max f.low.y f.high.y ∧
    min f.low.y f.high.y ≤ max e.low.y e.high.y)

/-- The cuts for two edges that cross off the grid near `p`. If an end of one of them is within the
square `radius` of `p`, the other edge is cut at the nearest such end. -/
def roundedCuts (radius : Int) (i : Nat) (e : Edge) (j : Nat) (f : Edge) (p : Point) : List Cut :=
  let eLow := p.squaredDistance e.low
  let eHigh := p.squaredDistance e.high
  let fLow := p.squaredDistance f.low
  let fHigh := p.squaredDistance f.high
  let both : List Cut := [⟨i, p, true⟩, ⟨j, p, true⟩]
  if eLow ≤ radius ∨ eHigh ≤ radius ∨ fLow ≤ radius ∨ fHigh ≤ radius then
    if min eLow eHigh ≤ min fLow fHigh then
      let q := if eLow < eHigh then e.low else e.high
      if f.onLine q then both else [⟨j, q, true⟩]
    else
      let q := if fLow < fHigh then f.low else f.high
      if e.onLine q then both else [⟨i, q, true⟩]
  else both

/-- The cuts for two edges. Edges on one line are cut at each other's ends. Otherwise the edges must
separate each other's ends, or an end of one must lie inside the other. -/
def cuts (radius : Int) : Nat × Edge → Nat × Edge → List Cut
  | (i, e), (j, f) =>
    if !touchAlongY e f then []
    else
      let s₁ := (Point.cross e.low e.high f.low).sign
      let s₂ := (Point.cross e.low e.high f.high).sign
      let s₃ := (Point.cross f.low f.high e.low).sign
      let s₄ := (Point.cross f.low f.high e.high).sign
      let onLine := [s₁, s₂, s₃, s₄].count 0
      if onLine = 4 then
        ([e.low, e.high].filter f.strictlyBetween).map (⟨j, ·, false⟩) ++
          ([f.low, f.high].filter e.strictlyBetween).map (⟨i, ·, false⟩)
      else if 1 < onLine ∨ s₁ = s₂ ∨ s₃ = s₄ then []
      else if s₁ = 0 then [⟨i, f.low, false⟩]
      else if s₂ = 0 then [⟨i, f.high, false⟩]
      else if s₃ = 0 then [⟨j, e.low, false⟩]
      else if s₄ = 0 then [⟨j, e.high, false⟩]
      else
        let p := crossPoint e f
        if e.onLine p && f.onLine p then [⟨i, p, false⟩, ⟨j, p, false⟩]
        else roundedCuts radius i e j f p

/-- The cuts for all pairs of a sorted list of edges. Edges that start to the right of another one's
end cannot meet it. -/
def allCuts (radius : Int) : List (Nat × Edge) → List Cut
  | [] => []
  | (i, e) :: rest =>
    (rest.takeWhile fun (_, f) ↦ decide (f.low.x ≤ e.high.x)).flatMap (cuts radius (i, e)) ++
      allCuts radius rest

/-! ### Pieces -/

/-- Sorts the points at which an edge is cut, each of them once. -/
def sortedPoints (points : List Point) : List Point :=
  (points.mergeSort fun p q ↦ (compare p q).isLE).foldr
    (fun p sorted ↦ if sorted.head? = some p then sorted else p :: sorted) []

/-- Puts sorted cut points into the order in which the edge reaches them. Within a run of equal `x`
that is downward when the point before the run is higher than the point after it. -/
def alongEdge (previousY lastY : Int) (runs : List (List Point)) : List Point :=
  match runs with
  | [] => []
  | run :: later =>
    let nextY := match later with
      | (p :: _) :: _ => p.y
      | _ => lastY
    let run := if nextY < previousY then run.reverse else run
    run ++ alongEdge ((run.getLast?.map Point.y).getD previousY) lastY later

/-- The edge cut at the given points. -/
def Edge.pieces (e : Edge) (points : List Point) : List Edge :=
  let runs := (sortedPoints points).splitBy fun p q ↦ p.x == q.x
  let stops := alongEdge e.low.y e.high.y runs ++ [e.high]
  List.zipWith (.ofEnds · · e.weight) (e.low :: stops) stops

/-- All edges with their cuts made. -/
def applyCuts (edges : List Edge) (found : List Cut) : List Edge :=
  let points : Array (List Point) :=
    found.foldl (fun table c ↦ table.modify c.edge (c.point :: ·)) (.replicate edges.length [])
  (edges.zip points.toList).flatMap fun (e, ps) ↦ if ps.isEmpty then [e] else e.pieces ps

/-! ### Rounds -/

/-- Rounds of splitting, at most `rounds` of them. A round without rounded crossings is the last. -/
def splitRounds (radius : Int) (edges : List Edge) : Nat → List Edge
  | 0 => edges
  | rounds + 1 =>
    let found := allCuts radius (edges.zipIdx.map Prod.swap)
    if found.isEmpty then edges
    else
      let pieces := normalize (applyCuts edges found)
      if found.any Cut.rounded then splitRounds (min (2 * radius) (2 ^ 60)) pieces rounds
      else pieces

/-- The edges split where they meet. What counts as close doubles in every round, so that few rounds
are ever needed. -/
def split (edges : List Edge) : List Edge :=
  let edges := normalize edges
  splitRounds 1 edges (edges.length + 64)

end GridGeometry.Arrangement
