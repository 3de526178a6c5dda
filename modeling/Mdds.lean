import Mdds.SegmentTree.Node
import Mdds.SegmentTree.Basic
import Mdds.SegmentTree.Search
import Mdds.SegmentTree.Shape
import Mdds.SegmentTree.TaggedNodes
import Mdds.SegmentTree.Soundness
import Mdds.SegmentTree.Completeness
import Mdds.RTree.Box
import Mdds.RTree.Node
import Mdds.RTree.Split
import Mdds.RTree.Insert
import Mdds.RTree.InsertEntries
import Mdds.RTree.Erase
import Mdds.RTree.Invariant
import Mdds.RTree.Shrink
import Mdds.RTree.Integrity
import Mdds.RTree.Search
import Mdds.RTree.EraseShrink
import Mdds.RTree.Heuristics
import Mdds.RTree.LocalInvariant
import Mdds.RTree.InsertInvariant
import Mdds.RTree.InsertProgress
import Mdds.RTree.Observers
import Mdds.RTree.Reachable
import Mdds.RTree.Height
import Mdds.RTree.EraseEntries
import Mdds.RTree.Enclosed
import Mdds.RTree.Refinement
import Mdds.RTree.Extent
import Mdds.RTree.Balance
import Mdds.RTree.Dangling
