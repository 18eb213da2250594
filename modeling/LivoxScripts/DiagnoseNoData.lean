/-
`ws_livox/diagnose_no_data.sh`: the configured addresses and the checks of the
host address, of the UDP ports and of the multicast group.
-/
import LivoxScripts.Config
import LivoxScripts.Sockets

namespace LivoxScripts.DiagnoseNoData

open TextTools JsonText

/-- `"lidar_ip"\s*:\s*\[\s*"\K[0-9.]+` -/
def lidarIpPattern : Regex :=
  keyed isSpace lidarIpKey (capturedFirst isSpace isAddressChar)

/-- `"host_ip"\s*:\s*"\K[0-9.]+` -/
def hostIpPattern : Regex := keyed isSpace hostIpKey (captured isAddressChar)

def lidarIp (configJson : Text) : Text :=
  orDefault (commandSubst (head1 (grepO .perl lidarIpPattern configJson)))
    "192.168.1.157".toList

def hostIp (configJson : Text) : Text :=
  orDefault (commandSubst (head1 (grepO .perl hostIpPattern configJson)))
    "192.168.1.100".toList

/-- The body of the loop over `/sys/class/net/*`.  `ip4AddrShow` is what
`ip -4 addr show` prints about the interface of a name. -/
def checkInterface (hostIp : Text) (ip4AddrShow : Text → Text)
    (currentIp name : Text) : Text :=
  if name = loName then currentIp
  else
    let ip := commandSubst (head1 (grepO .perl inetPattern (ip4AddrShow name)))
    if !ip.isEmpty && ip == hostIp then ip else currentIp

/-- `CURRENT_IP` after the loop: without it the script warns that no interface
has the host address. -/
def currentIp (hostIp : Text) (ip4AddrShow : Text → Text)
    (names : List Text) : Text :=
  names.foldl (checkInterface hostIp ip4AddrShow) []

def ports : List Nat := [56101, 56201, 56301, 56401, 56501]

/-- The loop over the ports.  It asks `ss -uln` where there is such a command,
else `netstat -uln`. -/
def portReports (ss? : Option Text) (netstat : Text) : List (Nat × Bool) :=
  LivoxScripts.portReports ports (ss?.getD netstat)

def multicastIpKey : Text := "multicast_ip".toList

/-- `"multicast_ip"\s*:\s*"\K[0-9.]+` -/
def multicastIpPattern : Regex :=
  keyed isSpace multicastIpKey (captured isAddressChar)

def multicastIp (configJson : Text) : Text :=
  orDefault (commandSubst (head1 (grepO .perl multicastIpPattern configJson)))
    "224.1.1.5".toList

/-- Whether section [4] finds the group in what `ip maddr show` prints. -/
def joinedGroup (multicastIp ipMaddrShow : Text) : Bool :=
  grepQ (.dotted multicastIp) ipMaddrShow

end LivoxScripts.DiagnoseNoData
