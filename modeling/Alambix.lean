import Alambix.Lib.Transition
import Alambix.Lib.Shuffle
import Alambix.Lib.Mqueue
import Alambix.Lib.CString
import Alambix.Lib.Pthread
import Alambix.Lib.Simulation
import Alambix.Lib.Barrier
import Alambix.Lib.Semaphore
import Alambix.Lib.Lines
import Alambix.Lib.Timer
import Alambix.Init
import Alambix.Program
import Alambix.Ordering
import Alambix.Delivery
import Alambix.Distilling
import Alambix.Progress
import Alambix.Rounds
import Alambix.Teardown
import Alambix.Exits
import Alambix.Instances
import Alambix.Message
import Alambix.Help
import Alambix.Children
import Alambix.SharedBuffer
import Alambix.Releasing
import Alambix.Barrier
import Alambix.Pub
import Alambix.Scenes
import Alambix.Step1
import Alambix.Outcome
import Alambix.Playing
import Alambix.Exemples.Sem
import Alambix.Exemples.Mq
import Alambix.Exemples.Watchdog
import Alambix.Exemples.Counter
import Alambix.Exemples.Race
import Alambix.Exemples.Sigchld
