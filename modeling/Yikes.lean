import Yikes.Properties.Beneath
import Yikes.Properties.Chomp
import Yikes.Properties.Collide
import Yikes.Properties.Command
import Yikes.Properties.Converge
import Yikes.Properties.Direct
import Yikes.Properties.Escape
import Yikes.Properties.Executed
import Yikes.Properties.Fill
import Yikes.Properties.Flow
import Yikes.Properties.Frame
import Yikes.Properties.Hostname
import Yikes.Properties.Load
import Yikes.Properties.LoadPath
import Yikes.Properties.Locked
import Yikes.Properties.Memory
import Yikes.Properties.Modes
import Yikes.Properties.Once
import Yikes.Properties.Outcome
import Yikes.Properties.Page
import Yikes.Properties.Parse
import Yikes.Properties.Pass
import Yikes.Properties.Plain
import Yikes.Properties.Podcast
import Yikes.Properties.Preview
import Yikes.Properties.Queue
import Yikes.Properties.Raise
import Yikes.Properties.Rest
import Yikes.Properties.Save
import Yikes.Properties.Scan
import Yikes.Properties.Serve
import Yikes.Properties.Session
import Yikes.Properties.Stub
import Yikes.Properties.Subpath
import Yikes.Properties.Urls
import Yikes.Properties.Whole
import Yikes.Properties.Window
