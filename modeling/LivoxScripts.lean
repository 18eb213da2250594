import LivoxScripts.SetupLivoxRos2
import LivoxScripts.ImuAngles
import LivoxScripts.ActiveAddresses
import LivoxScripts.LivoxDevices
import LivoxScripts.ConfigReaders
import LivoxScripts.ConfigUpdate
import LivoxScripts.HostAddress
import LivoxScripts.ConfigOverlap
import LivoxScripts.SetupRun
import LivoxScripts.PortChecks
import LivoxScripts.MulticastChecks
import LivoxScripts.NetworkScan
import LivoxScripts.EnvHooks
import LivoxScripts.SetupPaths
import LivoxScripts.SetupSessions
