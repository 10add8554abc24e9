import Fsx600.Properties.Tree
import Fsx600.Properties.Atomicity
import Fsx600.Properties.Flushing
import Fsx600.Properties.UniqueNames
import Fsx600.Properties.Types
import Fsx600.Properties.Refinement
import Fsx600.Properties.Isolation
import Fsx600.Properties.Leaks
import Fsx600.Properties.Chunks
import Fsx600.Properties.Layout
import Fsx600.Properties.Root
import Fsx600.Properties.InodeRange
import Fsx600.Properties.Releasing
import Fsx600.Properties.Overwriting
import Fsx600.Properties.SizeLaw
import Fsx600.Properties.Extending
import Fsx600.Properties.ReadInside
import Fsx600.Properties.ReadBounds
import Fsx600.Properties.Checker
import Fsx600.Properties.Walkers
import Fsx600.Properties.PathTables
import Fsx600.Properties.Listing
import Fsx600.Properties.NamesTaken
import Fsx600.Properties.Renaming
import Fsx600.Properties.Undoing
import Fsx600.Properties.ReadBuffer
import Fsx600.Properties.LostBlocks
import Fsx600.Properties.FailedWrites
import Fsx600.Properties.SizeLimit
import Fsx600.Properties.Statistics
import Fsx600.Properties.DiskAccess
import Fsx600.Properties.Remounting
import Fsx600.Properties.Accepting
import Fsx600.Properties.Showing
import Fsx600.Properties.Printing
import Fsx600.Properties.Scripts
