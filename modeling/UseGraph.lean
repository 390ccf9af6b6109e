import UseGraph.Viewer
import UseGraph.Location
import UseGraph.Proofs.Provenance
import UseGraph.Proofs.Edges
import UseGraph.Proofs.Conservation
import UseGraph.Proofs.Reordering
import UseGraph.Proofs.Likeness
import UseGraph.Proofs.Recall
import UseGraph.Proofs.Shuffling
import UseGraph.Proofs.Ascents
import UseGraph.Proofs.Fallback
import UseGraph.Proofs.Orders
import UseGraph.Proofs.Coverage
import UseGraph.Proofs.Settling
import UseGraph.Proofs.Weighing
import UseGraph.Proofs.Totals
import UseGraph.Proofs.Accounts
import UseGraph.Proofs.Congruence
import UseGraph.Proofs.Guarded.Basic
import UseGraph.Proofs.Guarded.Forest
import UseGraph.Proofs.Incidence
import UseGraph.Proofs.Guarded.Hierarchy
import UseGraph.Proofs.Guarded.Packing
import UseGraph.Proofs.Guarded.Radial
import UseGraph.Proofs.Guarded.Display
import UseGraph.Proofs.Routes
import UseGraph.Proofs.Trails
import UseGraph.Proofs.Redrawing
import UseGraph.Proofs.Readings
import UseGraph.Proofs.Rankings
import UseGraph.Proofs.Labels
import UseGraph.Proofs.Verdicts
import UseGraph.Proofs.Focus
import UseGraph.Proofs.Pointing
import UseGraph.Proofs.Numbering
import UseGraph.Proofs.Meaning
import UseGraph.Proofs.Recovery
import UseGraph.Proofs.Directions
import UseGraph.Proofs.Magnitudes
