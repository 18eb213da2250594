/-
`ws_livox/check_lidar_connection.sh`: the checks of the host address and of the
ports.
-/
import LivoxScripts.Sockets

namespace LivoxScripts.CheckLidarConnection

open TextTools

/-- What the script says about the host address. -/
inductive HostReport where
  | ok
  | missing (currentAddresses : Text)
deriving DecidableEq

def hostReport (hostIp ipAddrShow : Text) : HostReport :=
  if grepQ (.dotted hostIp) ipAddrShow then .ok
  else .missing (grepV (.dotted "127.0.0.1".toList)
    (grep (.lit inetWord) ipAddrShow))

def ports : List Nat :=
  [56100, 56200, 56300, 56400, 56500, 56101, 56201, 56301, 56401, 56501]

/-- The ports the script prints a line about. -/
def listeningPorts (netstat : Text) : List Nat :=
  ports.filter fun port => grepQ (portPattern port) netstat

end LivoxScripts.CheckLidarConnection
