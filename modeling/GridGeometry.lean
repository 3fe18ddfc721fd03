import GridGeometry.Arrangement.Grow
import GridGeometry.Region.Corners
import GridGeometry.Region.Crossings
import GridGeometry.Region.Growth
import GridGeometry.Region.Slits
import GridGeometry.Text.Document
import GridGeometry.Text.Reader
import GridGeometry.Proofs.Box
import GridGeometry.Proofs.Contour.Area
import GridGeometry.Proofs.Contour.Boundary
import GridGeometry.Proofs.Contour.Corners
import GridGeometry.Proofs.Contour.EvenOdd
import GridGeometry.Proofs.Contour.Loops
import GridGeometry.Proofs.Contour.NullEdges
import GridGeometry.Proofs.Contour.Parity
import GridGeometry.Proofs.Contour.Repeats
import GridGeometry.Proofs.Contour.Shoelace
import GridGeometry.Proofs.Contour.Slimming
import GridGeometry.Proofs.Contour.Symmetry
import GridGeometry.Proofs.Contour.Translation
import GridGeometry.Proofs.Least
import GridGeometry.Proofs.Region.Addresses
import GridGeometry.Proofs.Region.Crossings
import GridGeometry.Proofs.Region.Direction
import GridGeometry.Proofs.Region.Editing
import GridGeometry.Proofs.Region.Enumeration
import GridGeometry.Proofs.Region.Extent
import GridGeometry.Proofs.Region.Growth
import GridGeometry.Proofs.Region.Loops
import GridGeometry.Proofs.Region.Owners
import GridGeometry.Proofs.Region.Shapes
import GridGeometry.Proofs.Region.Translation
import GridGeometry.Proofs.Region.Walk
import GridGeometry.Proofs.Segment
import GridGeometry.Proofs.Slit.Area
import GridGeometry.Proofs.Slit.Axial
import GridGeometry.Proofs.Slit.Choice
import GridGeometry.Proofs.Slit.Clearance
import GridGeometry.Proofs.Slit.Closing
import GridGeometry.Proofs.Slit.Drift
import GridGeometry.Proofs.Slit.Embedding
import GridGeometry.Proofs.Slit.HeldRing
import GridGeometry.Proofs.Slit.Kept
import GridGeometry.Proofs.Slit.Layout
import GridGeometry.Proofs.Slit.Run
import GridGeometry.Proofs.Slit.Splice
import GridGeometry.Proofs.Slit.Thinning
import GridGeometry.Proofs.Slit.Translation
import GridGeometry.Proofs.Slit.VertexCount
import GridGeometry.Proofs.Slit.Width
import GridGeometry.Proofs.Text.Continuation
import GridGeometry.Proofs.Text.Grammar
import GridGeometry.Proofs.Text.Numeral
import GridGeometry.Proofs.Text.RoundTrip
import GridGeometry.Proofs.Text.Word
