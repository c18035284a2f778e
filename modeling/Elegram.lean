import Elegram.Client.Reassembly
import Elegram.Server.Identity
import Elegram.Server.Server
import Elegram.Server.Dispatch
import Elegram.Server.ChatShape
import Elegram.Server.Privacy
import Elegram.Server.ChatRace
import Elegram.Server.ChatCreation
import Elegram.Server.Contacts
import Elegram.Server.Writers
import Elegram.Server.Accounts
import Elegram.Server.Transcript
import Elegram.Client.Buffer
import Elegram.Client.NetworkSession
import Elegram.System.Frames
import Elegram.Client.Lock
import Elegram.Client.MessageCache
import Elegram.Client.Leftovers
import Elegram.Client.Pages
import Elegram.System.Truth
import Elegram.System.Login
import Elegram.Client.ListSignals
import Elegram.Server.Reading
import Elegram.System.Loading
import Elegram.Client.Fates
import Elegram.Protocol.Runtime
import Elegram.Server.Memory
import Elegram.System.Progress
import Elegram.System.Bytes
