import PackedDrawing.Layout.Script
import PackedDrawing.Numeric.Double
import PackedDrawing.Packing.Overlap
import PackedDrawing.Plane.Edge
import PackedDrawing.Svg.Document
import PackedDrawing.Text.Json
import PackedDrawing.Proofs.Component.Classes
import PackedDrawing.Proofs.Component.Ends
import PackedDrawing.Proofs.Plane.Turn
import PackedDrawing.Proofs.Plane.Span
import PackedDrawing.Proofs.Plane.Order
import PackedDrawing.Proofs.Plane.Support
import PackedDrawing.Proofs.Placement.Pose
import PackedDrawing.Proofs.Placement.Moves
import PackedDrawing.Proofs.Placement.Exact
import PackedDrawing.Proofs.Component.Sharing
import PackedDrawing.Proofs.Placement.Collect
import PackedDrawing.Proofs.Layout.Packed
import PackedDrawing.Proofs.Layout.Rigid
import PackedDrawing.Proofs.Packing.Shelves
import PackedDrawing.Proofs.Layout.Home
import PackedDrawing.Proofs.Layout.Separated
import PackedDrawing.Proofs.Packing.Order
import PackedDrawing.Proofs.Packing.Shelving
import PackedDrawing.Proofs.Numeric.Whole
import PackedDrawing.Proofs.Packing.Room
import PackedDrawing.Proofs.Plane.Chains
import PackedDrawing.Proofs.Plane.Corners
import PackedDrawing.Proofs.Plane.Extreme
import PackedDrawing.Proofs.Plane.Sweep
import PackedDrawing.Proofs.Plane.Calipers
import PackedDrawing.Proofs.Component.Copies
import PackedDrawing.Proofs.Component.Return
import PackedDrawing.Proofs.Layout.Translated
import PackedDrawing.Proofs.Layout.Area
import PackedDrawing.Proofs.Component.BroughtHome
import PackedDrawing.Proofs.Layout.Interrupted
import PackedDrawing.Proofs.Component.Readings
import PackedDrawing.Proofs.Layout.Checked
import PackedDrawing.Proofs.Layout.Members
import PackedDrawing.Proofs.Layout.Refused
import PackedDrawing.Proofs.Packing.Greedy
import PackedDrawing.Proofs.Packing.Undisturbed
import PackedDrawing.Proofs.Packing.Narrow
import PackedDrawing.Proofs.Layout.Current
import PackedDrawing.Proofs.Packing.Covered
import PackedDrawing.Proofs.Placement.Inverse
import PackedDrawing.Proofs.Layout.Unturned
import PackedDrawing.Proofs.Layout.Replaced
import PackedDrawing.Proofs.Sorting.Stable
import PackedDrawing.Proofs.Layout.Ranked
import PackedDrawing.Proofs.Layout.Slots
import PackedDrawing.Proofs.Svg.Lines
import PackedDrawing.Proofs.Svg.View
import PackedDrawing.Proofs.Svg.Intact
