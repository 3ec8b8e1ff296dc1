import BowerBird.CommsSafety
import BowerBird.CommsFraming
import BowerBird.CommsHistory
import BowerBird.CommsMagic
import BowerBird.CommsInvariant
import BowerBird.CommsFormats
import BowerBird.CommsSwitches
import BowerBird.CommsPowerDown
import BowerBird.CommsStreams
import BowerBird.SoundSamples
import BowerBird.SoundPackets
import BowerBird.SoundStreaming
import BowerBird.SoundSplices
import BowerBird.SoundTransfers
import BowerBird.SoundSessions
import BowerBird.SoundSchedule
import BowerBird.SoundAudio
import BowerBird.SoundConversation
import BowerBird.PreAmpGains
import BowerBird.SoundConsole
import BowerBird.SoundGains
import BowerBird.SoundReadings
import BowerBird.PowerSerial
import BowerBird.PowerPipe
import BowerBird.PowerHost
import BowerBird.PowerReports
import BowerBird.PowerTranscript
import BowerBird.PowerProgress
import BowerBird.PowerErrors
import BowerBird.PowerBacklog
import BowerBird.PowerBridge
import BowerBird.RingBuffer
