/-
`find_livox_ip.sh`: the neighbours of sections [2] and [6], the addresses of
section [3] and the scan of section [5].
-/
import LivoxScripts.ArpTable
import LivoxScripts.Config
import LivoxScripts.Machine

namespace LivoxScripts.FindLivoxIp

open TextTools JsonText

def activeIps (arpTable : Text) : Text :=
  commandSubst (sortU (grepO .perl quadPattern
    (grepV (.lit incompleteWord) arpTable)))

/-- The pairs `ip -> mac` that the loop over `$ACTIVE_IPS` prints. -/
def activePairs (arpTable : Text) : List (Text × Text) :=
  if (activeIps arpTable).isEmpty then []
  else (shellWords (activeIps arpTable)).map fun ip =>
    (ip, macLookup arpTable ip)

/-- `"lidar_ip"\s*:\s*\[\s*"\K[^"]+` -/
def lidarIpPattern : Regex :=
  keyed isSpace lidarIpKey (capturedFirst isSpace notQuote)

/-- `"host_ip"\s*:\s*"\K[^"]+` -/
def hostIpPattern : Regex := keyed isSpace hostIpKey (captured notQuote)

def configLidarIp (configFile : Text) : Text :=
  orDefault (commandSubst (head1 (grepO .perl lidarIpPattern configFile)))
    "192.168.1.1".toList

def configHostIp (configFile : Text) : Text :=
  orDefault (commandSubst (head1 (grepO .perl hostIpPattern configFile)))
    "192.168.1.100".toList

/-- `CURRENT_HOST_IP`: the address of `eth0`, or else the first one that is
listed. -/
def currentHostIp (ipAddrShowEth0 ipAddrShow : Text) : Text :=
  let eth0 := commandSubst (head1 (grepO .perl inetPattern ipAddrShowEth0))
  if eth0.isEmpty then
    commandSubst (head1 (grepV (.dotted "127.0.0.1".toList)
      (grepO .perl inetPattern ipAddrShow)))
  else eth0

/-- Whether the section warns that the host address differs. -/
def hostDiffers (ipAddrShowEth0 ipAddrShow configFile : Text) : Bool :=
  currentHostIp ipAddrShowEth0 ipAddrShow != configHostIp configFile

/-- What the addresses of the scan begin with. -/
def network : Text := "192.168.1.".toList

/-- The body of the loop over `{1..254}`: `FOUND_IPS` after one more address.
`ping` tells which addresses answer. -/
def scanStep (ping : Text → Bool) (currentHostIp : Text)
    (foundIps : List Text) (i : Nat) : List Text :=
  let ip := network ++ Nat.toDigits 10 i
  if ip = currentHostIp then foundIps
  else if ping ip then foundIps ++ [ip]
  else foundIps

def foundIps (ping : Text → Bool) (currentHostIp : Text) : List Text :=
  (List.range' 1 254).foldl (scanStep ping currentHostIp) []

/-- The addresses that section [8] suggests: none while the configured lidar
answers. -/
def suggestedIps (lidarAnswers : Bool) (foundIps : List Text) : List Text :=
  if lidarAnswers then [] else foundIps

def livoxMacPrefixes : List Text :=
  ["0c:9a".toList, "00:16".toList, "00:1e".toList]

/-- The address and the MAC address of each report about one line. -/
def livoxReports (line : Text) : List (Text × Text) :=
  if grepQ (.lit incompleteWord) (echo line) then []
  else
    let mac := commandSubst (head1 (grepO .perl macPattern (echo line)))
    let ip := commandSubst (head1 (grepO .perl quadPattern (echo line)))
    if !mac.isEmpty && !ip.isEmpty then
      let macPrefix := commandSubst (cut ':' 2 (echo mac))
      (livoxMacPrefixes.filter (macPrefix == ·)).map fun _ => (ip, mac)
    else []

def livoxDevices (arpTable : Text) : List (Text × Text) :=
  (whileRead arpTable).flatMap livoxReports

end LivoxScripts.FindLivoxIp
