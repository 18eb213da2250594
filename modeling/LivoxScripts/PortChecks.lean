/-
The five scripts that look for the ports of the driver in a socket listing.
-/
import LivoxScripts.CheckLidarConnection
import LivoxScripts.CheckLivoxConnection
import LivoxScripts.DiagnoseLivoxRos2
import LivoxScripts.DiagnoseNoData
import LivoxScripts.FixLivoxRos2Connection

namespace LivoxScripts

open TextTools

/-- For each of the ports, whether a socket of the table is bound to it. -/
def SocketTable.portStates (table : SocketTable) (ports : List Nat) :
    List (Nat × Bool) :=
  ports.map fun port => (port, decide (table.Binds port))

/-- Each script tells exactly which of its ports are bound; the one that asks
two commands believes the first that is there. -/
structure TellsPorts (ss? : Option SocketTable) (netstat : SocketTable) :
    Prop where
  livoxConnection : CheckLivoxConnection.portReports netstat.listing =
    netstat.portStates CheckLivoxConnection.ports
  noData : DiagnoseNoData.portReports (ss?.map SocketTable.listing)
      netstat.listing =
    (ss?.getD netstat).portStates DiagnoseNoData.ports
  ros2 : DiagnoseLivoxRos2.portReports netstat.listing =
    netstat.portStates DiagnoseLivoxRos2.ports
  lidarConnection : CheckLidarConnection.listeningPorts netstat.listing =
    CheckLidarConnection.ports.filter fun port => decide (netstat.Binds port)
  ros2Connection : ∀ (m : Machine) (ping : Bool),
    FixLivoxRos2Connection.report ping
        (m.ipAddrShowDev DiagnoseLivoxRos2.eth0Name) netstat.listing =
      if ping then
        .checked (addressText (m.devAddress? DiagnoseLivoxRos2.eth0Name))
          (decide (m.devAddress? DiagnoseLivoxRos2.eth0Name ≠
            some (quad 192 168 1 100)))
          ⟨FixLivoxRos2Connection.ports.filter fun port =>
              decide (netstat.Binds port),
            decide (∀ port ∈ FixLivoxRos2Connection.ports,
              ¬ netstat.Binds port)⟩
      else .unreachable

variable {m : Machine} {table : SocketTable}

/-- What the loop leaves after some ports. -/
theorem foldl_checkPort (ports occupied : List Nat) (portFree : Bool) :
    ports.foldl (FixLivoxRos2Connection.checkPort table.listing)
        ⟨occupied, portFree⟩ =
      ⟨occupied ++ ports.filter fun port => decide (table.Binds port),
        portFree && decide (∀ port ∈ ports, ¬ table.Binds port)⟩ := by
  induction ports generalizing occupied portFree with
  | nil => simp
  | cons port ports ih =>
      rw [List.foldl_cons, FixLivoxRos2Connection.checkPort,
        grepQ_portPattern]
      by_cases hbinds : table.Binds port
      · simp [hbinds, ih]
      · simp [hbinds, ih]

theorem currentIp_ne_expectedIp_iff {q? : Option Quad} :
    addressText q? ≠ FixLivoxRos2Connection.expectedIp ↔
      q? ≠ some (quad 192 168 1 100) := by
  have hexpected : FixLivoxRos2Connection.expectedIp =
      (quad 192 168 1 100).text := by decide
  rw [hexpected, not_iff_not]
  cases q? with
  | none => simp [addressText, Ne.symm (Quad.text_ne_nil _)]
  | some q =>
      refine ⟨fun h => congrArg some (Quad.text_injective h), fun h => ?_⟩
      rw [Option.some.inj h]
      rfl

theorem report_listing (m : Machine) (table : SocketTable) (ping : Bool) :
    FixLivoxRos2Connection.report ping
        (m.ipAddrShowDev DiagnoseLivoxRos2.eth0Name) table.listing =
      if ping then
        .checked (addressText (m.devAddress? DiagnoseLivoxRos2.eth0Name))
          (decide (m.devAddress? DiagnoseLivoxRos2.eth0Name ≠
            some (quad 192 168 1 100)))
          ⟨FixLivoxRos2Connection.ports.filter fun port =>
              decide (table.Binds port),
            decide (∀ port ∈ FixLivoxRos2Connection.ports,
              ¬ table.Binds port)⟩
      else .unreachable := by
  have hcurrent : FixLivoxRos2Connection.currentIp
      (m.ipAddrShowDev DiagnoseLivoxRos2.eth0Name) =
        addressText (m.devAddress? DiagnoseLivoxRos2.eth0Name) :=
    currentHostIp_eq_devAddress m _
  have hdiffers : (addressText (m.devAddress? DiagnoseLivoxRos2.eth0Name) !=
      FixLivoxRos2Connection.expectedIp) =
        decide (m.devAddress? DiagnoseLivoxRos2.eth0Name ≠
          some (quad 192 168 1 100)) := by
    rw [Bool.eq_iff_iff, bne_iff_ne, decide_eq_true_iff]
    exact currentIp_ne_expectedIp_iff
  rw [FixLivoxRos2Connection.report, hcurrent, hdiffers,
    FixLivoxRos2Connection.checkPorts, foldl_checkPort, List.nil_append,
    Bool.true_and]

/-- The scripts find a port exactly where a socket is bound to it, in every
listing. -/
theorem tellsPorts (ss? : Option SocketTable) (netstat : SocketTable) :
    TellsPorts ss? netstat where
  livoxConnection := portReports_eq _ _
  noData := by
    rw [DiagnoseNoData.portReports]
    cases ss? with
    | none => exact portReports_eq _ _
    | some ss => exact portReports_eq _ _
  ros2 := portReports_eq _ _
  lidarConnection := by
    rw [CheckLidarConnection.listeningPorts]
    exact List.filter_congr fun port _ => grepQ_portPattern netstat port
  ros2Connection m ping := report_listing m netstat ping

theorem isPeerText {t : Text} (hline : '\n' ∉ t)
    (hchain : t.IsChain fun c d => c = ':' → d.isDigit = false) :
    '\n' ∉ t ∧ ∀ d, d.isDigit = true → ¬ [':', d] <:+: t := by
  refine ⟨hline, fun d hd hin => ?_⟩
  obtain ⟨before, after, rfl⟩ := hin
  have hnot := List.isChain_iff_forall_rel_of_append_cons_cons.mp hchain
    (show before ++ [':', d] ++ after = before ++ ':' :: d :: after by simp) rfl
  simp [hd] at hnot

/-- A socket that waits for anybody. -/
def waitingSocket (port : Nat) : Socket where
  columns := ⟨"UNCONN 0      0      ".toList, by decide, by decide⟩
  address := ⟨"0.0.0.0".toList, by decide, by decide⟩
  port := port
  peer := ⟨"     0.0.0.0:*".toList, isPeerText (by decide) (by decide)⟩

/-- What `ss -uln` prints while the driver waits at its first port; the other
socket has the digits of the second one in its port. -/
def driverSockets : SocketTable where
  headings := [⟨"State  Recv-Q Send-Q Local Address:Port Peer Address:Port".toList,
    isPeerText (by decide) (by decide)⟩]
  sockets := [waitingSocket 56101, waitingSocket 5620]

example : DiagnoseNoData.portReports (some driverSockets.listing) [] =
    [(56101, true), (56201, false), (56301, false), (56401, false),
      (56501, false)] := by
  decide +kernel

end LivoxScripts
