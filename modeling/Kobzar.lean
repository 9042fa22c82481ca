import Kobzar.Pidx.Branches
import Kobzar.Pidx.Layout
import Kobzar.Pidx.Versions
import Kobzar.BitmapEdit
import Kobzar.BitmapMerge
import Kobzar.IdentErrors
import Kobzar.Cfg
import Kobzar.PageStore.Selection
import Kobzar.PageStore.Access
import Kobzar.PageStore.Score
import Kobzar.PageStore.Ring
import Kobzar.PageStore.Recency
import Kobzar.PageStore.Reuse
import Kobzar.PageStore.Filenames
import Kobzar.PageStore.Overlay
import Kobzar.Schema.Flags
import Kobzar.Schema.Db
import Kobzar.Schema.Repr
import Kobzar.Schema.Display
import Kobzar.Schema.Reader
import Kobzar.BTree.Positions
import Kobzar.BTree.Limit
import Kobzar.BTree.Layout
import Kobzar.BTree.Frame
import Kobzar.Wal.Decode
import Kobzar.Wal.Tiling
import Kobzar.Wal.Torn
import Kobzar.Wal.Padding
import Kobzar.Wal.Names
import Kobzar.Wal.Order
import Kobzar.Wal.Recovery
import Kobzar.Wal.Refinement
import Kobzar.Heap.Cursor
import Kobzar.Heap.Codec
import Kobzar.Heap.Positions
import Kobzar.Heap.Record
import Kobzar.Heap.Blob
import Kobzar.Heap.Frame
