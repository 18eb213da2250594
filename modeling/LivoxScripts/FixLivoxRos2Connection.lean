/-
`fix_livox_ros2_connection.sh`: the checks of sections [2] to [4] before the
driver is started.
-/
import LivoxScripts.Sockets

namespace LivoxScripts.FixLivoxRos2Connection

open TextTools

/-- `CURRENT_IP`, from what `ip addr show eth0` prints -/
def currentIp (ipAddrShowEth0 : Text) : Text :=
  commandSubst (head1 (grepO .perl inetPattern ipAddrShowEth0))

def expectedIp : Text := "192.168.1.100".toList

def ports : List Nat := [56101, 56201, 56301, 56401, 56501]

/-- The ports found taken so far, and `PORT_FREE`. -/
structure PortState where
  occupied : List Nat
  portFree : Bool
deriving DecidableEq

/-- The body of the loop over the ports. -/
def checkPort (netstat : Text) (state : PortState) (port : Nat) : PortState :=
  if grepQ (portPattern port) netstat then
    ⟨state.occupied ++ [port], false⟩
  else state

def checkPorts (netstat : Text) : PortState :=
  ports.foldl (checkPort netstat) ⟨[], true⟩

/-- What the script reports before it starts the driver: nothing but the
missing answer when the lidar cannot be reached. -/
inductive Report where
  | unreachable
  | checked (currentIp : Text) (differs : Bool) (state : PortState)
deriving DecidableEq

def report (ping : Bool) (ipAddrShowEth0 netstat : Text) : Report :=
  if ping then
    .checked (currentIp ipAddrShowEth0)
      (currentIp ipAddrShowEth0 != expectedIp) (checkPorts netstat)
  else .unreachable

end LivoxScripts.FixLivoxRos2Connection
