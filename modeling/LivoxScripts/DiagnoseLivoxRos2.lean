/-
`ws_livox/diagnose_livox_ros2.sh`: the configured addresses and the checks of
the host address and of the UDP ports.
-/
import LivoxScripts.Config
import LivoxScripts.Sockets

namespace LivoxScripts.DiagnoseLivoxRos2

open TextTools JsonText

/-- `"lidar_ip"[[:space:]]*:[[:space:]]*\["[^"]*"` -/
def lidarIpPattern : Regex :=
  keyed isSpace lidarIpKey (enclosed notQuote ['[', '"'] [])

/-- `"host_ip"[[:space:]]*:[[:space:]]*"[^"]*"` -/
def hostIpPattern : Regex :=
  keyed isSpace hostIpKey (enclosed notQuote ['"'] [])

def lidarIp (configFile : Text) : Text :=
  commandSubst (head1 (grepO .posix quadPattern
    (grepO .posix lidarIpPattern configFile)))

def hostIp (configFile : Text) : Text :=
  commandSubst (head1 (grepO .posix quadPattern
    (grepO .posix hostIpPattern configFile)))

/-- The interface whose address is compared. -/
def eth0Name : Text := "eth0".toList

/-- `ACTUAL_IP`, from what `ip addr show eth0` prints -/
def actualIp (ipAddrShowEth0 : Text) : Text :=
  commandSubst (cut '/' 1 (awkPrint 1 (grep (.lit inetWord) ipAddrShowEth0)))

inductive HostVerdict where
  | pass
  | fail (actualIp : Text)
  | warn
deriving DecidableEq

def hostVerdict (hostIp ipAddrShowEth0 : Text) : HostVerdict :=
  if (actualIp ipAddrShowEth0).isEmpty then .warn
  else if actualIp ipAddrShowEth0 = hostIp then .pass
  else .fail (actualIp ipAddrShowEth0)

def ports : List Nat := [56100, 56200, 56300, 56400, 56500]

/-- The ports, each with whether it is taken. -/
def portReports (netstat : Text) : List (Nat × Bool) :=
  LivoxScripts.portReports ports netstat

end LivoxScripts.DiagnoseLivoxRos2
