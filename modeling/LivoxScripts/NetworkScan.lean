/-
The two scans of `192.168.1.x`: what section [5] of `find_livox_ip.sh` lists and
what the fallback of `fix_livox_ip.sh` picks.
-/
import LivoxScripts.HostVerdicts
import LivoxScripts.LivoxDevices

namespace LivoxScripts

open TextTools

/-- An address of the network that both scripts scan. -/
def scanned (n : Nat) : Quad := quad 192 168 1 n

/-- The first complete entry whose line holds the address is a Livox device. -/
def looksLivox (table : List ArpEntry) (q : Quad) : Bool :=
  ((resolved table).find? (Resembles q ·.line)).any fun e => e.IsLivox

/-- The first address of the range of the fallback that answers and looks like a
device in the table as it is then. -/
structure FirstLivox (ping : Text → Bool) (tableAfter : Text → List ArpEntry)
    (n : Nat) : Prop where
  range : 150 ≤ n ∧ n ≤ 200
  accepted : ping (scanned n).text = true ∧
    looksLivox (tableAfter (scanned n).text) (scanned n) = true
  least : ∀ k, 150 ≤ k → k < n → ping (scanned k).text = true →
    looksLivox (tableAfter (scanned k).text) (scanned k) = false

/-- The address that `find_livox_ip.sh` takes for the machine's own. -/
def Machine.hostAddress? (m : Machine) : Option Quad :=
  (m.devAddress? DiagnoseLivoxRos2.eth0Name).or m.leadingAddress?

/-- What section [5] finds on a machine. -/
def Machine.foundIps (m : Machine) (ping : Text → Bool) : List Text :=
  FindLivoxIp.foundIps ping (FindLivoxIp.currentHostIp
    (m.ipAddrShowDev DiagnoseLivoxRos2.eth0Name) m.ipAddrShow)

variable {m : Machine} {ping : Text → Bool} {current ip : Text}

theorem scanned_text (n : Nat) :
    FindLivoxIp.network ++ Nat.toDigits 10 n = (scanned n).text := by
  have hnetwork : FindLivoxIp.network =
      Nat.toDigits 10 192 ++ '.' :: (Nat.toDigits 10 168 ++ '.' ::
        (Nat.toDigits 10 1 ++ ['.'])) := by decide
  rw [hnetwork]
  simp [scanned, Quad.text, quad, octet]

theorem scanned_injective {n k : Nat} (h : scanned n = scanned k) : n = k := by
  have htext : Nat.toDigits 10 n = Nat.toDigits 10 k :=
    congrArg (fun q : Quad => q.fourth.1) h
  exact portText_injective htext

theorem foldl_scanStep (range : List Nat) (foundIps : List Text) :
    range.foldl (FindLivoxIp.scanStep ping current) foundIps =
      foundIps ++ (range.map fun n => (scanned n).text).filter fun ip =>
        ip ≠ current ∧ ping ip = true := by
  induction range generalizing foundIps with
  | nil => simp
  | cons n ns ih =>
      rw [List.foldl_cons, FindLivoxIp.scanStep, scanned_text, ih]
      by_cases hcurrent : (scanned n).text = current
      · simp [hcurrent]
      · by_cases hping : ping (scanned n).text = true
        · simp [hcurrent, hping]
        · simp [hcurrent, hping]

/-- The scan lists the addresses that answer, but for the current one. -/
theorem mem_foundIps : ip ∈ FindLivoxIp.foundIps ping current ↔
    ∃ n, (1 ≤ n ∧ n ≤ 254) ∧ (scanned n).text = ip ∧ ip ≠ current ∧
      ping ip = true := by
  rw [FindLivoxIp.foundIps, foldl_scanStep, List.nil_append, List.mem_filter,
    List.mem_map, decide_eq_true_iff]
  constructor
  · rintro ⟨⟨n, hn, rfl⟩, hip⟩
    have hrange := List.mem_range'_1.mp hn
    exact ⟨n, ⟨hrange.1, by omega⟩, rfl, hip⟩
  · rintro ⟨n, hrange, rfl, hip⟩
    exact ⟨⟨n, List.mem_range'_1.mpr ⟨hrange.1, by omega⟩, rfl⟩, hip⟩

theorem text_eq_currentHostIp_iff {q : Quad} :
    q.text = FindLivoxIp.currentHostIp
        (m.ipAddrShowDev DiagnoseLivoxRos2.eth0Name) m.ipAddrShow ↔
      m.hostAddress? = some q := by
  rw [currentHostIp_find_eq, ← Machine.hostAddress?]
  cases m.hostAddress? with
  | none => simp [addressText, q.text_ne_nil]
  | some own => rw [eq_comm, addressText_some_inj, Option.some.injEq]

theorem mem_foundIps_scanned {n : Nat} :
    (scanned n).text ∈ m.foundIps ping ↔ (1 ≤ n ∧ n ≤ 254) ∧
      m.hostAddress? ≠ some (scanned n) ∧ ping (scanned n).text = true := by
  rw [Machine.foundIps, mem_foundIps, ne_eq, text_eq_currentHostIp_iff]
  constructor
  · rintro ⟨k, hrange, htext, hrest⟩
    exact ⟨scanned_injective (Quad.text_injective htext) ▸ hrange, hrest⟩
  · rintro ⟨hrange, hrest⟩
    exact ⟨n, hrange, rfl, hrest⟩

/-- The found addresses are suggested unless the configured lidar answers. -/
theorem mem_suggestedIps_iff {lidarAnswers : Bool} {found : List Text}
    (hip : ip ∈ found) :
    ip ∈ FindLivoxIp.suggestedIps lidarAnswers found ↔ lidarAnswers = false := by
  cases lidarAnswers with
  | true => exact iff_of_false List.not_mem_nil (by decide)
  | false => exact iff_of_true hip rfl

/-- On a machine that answers its own addresses the scan lists none of them
exactly when the only one it can meet is the one it leaves out.  Any other one is
listed, and suggested as the lidar's when the configured lidar is silent. -/
theorem foundIps_avoids_own_iff (m : Machine)
    (hping : ∀ q, m.Carries q → ping q.text = true) :
    ((∀ q, m.Carries q → q.text ∉ m.foundIps ping) ↔
      ∀ n, 1 ≤ n → n ≤ 254 → m.Carries (scanned n) →
        m.hostAddress? = some (scanned n)) ∧
    ∀ n, 1 ≤ n → n ≤ 254 → m.Carries (scanned n) →
      m.hostAddress? ≠ some (scanned n) →
        (scanned n).text ∈ m.foundIps ping ∧
          ∀ lidarAnswers, (scanned n).text ∈
              FindLivoxIp.suggestedIps lidarAnswers (m.foundIps ping) ↔
            lidarAnswers = false := by
  have hlisted : ∀ n, 1 ≤ n → n ≤ 254 → m.Carries (scanned n) →
      m.hostAddress? ≠ some (scanned n) →
        (scanned n).text ∈ m.foundIps ping :=
    fun n hlow hhigh hcarries hother => mem_foundIps_scanned.mpr
      ⟨⟨hlow, hhigh⟩, hother, hping _ hcarries⟩
  refine ⟨⟨?_, ?_⟩, fun n hlow hhigh hcarries hother =>
    ⟨hlisted n hlow hhigh hcarries hother,
      fun _ => mem_suggestedIps_iff (hlisted n hlow hhigh hcarries hother)⟩⟩
  · intro h n hlow hhigh hcarries
    by_contra hother
    exact h _ hcarries (hlisted n hlow hhigh hcarries hother)
  · intro h q hcarries hmem
    obtain ⟨n, -, htext, -⟩ := mem_foundIps.mp hmem
    obtain rfl := Quad.text_injective htext
    obtain ⟨⟨hlow, hhigh⟩, hother, -⟩ := mem_foundIps_scanned.mp hmem
    exact hother (h n hlow hhigh hcarries)

/-- Both cards are in the network that is scanned. -/
def neighbourCards : List Interface :=
  [{ eth0Interface [] with
      addresses := [{ eth0Address 0 with
        address := scanned 100, broadcast := none }] },
    { wlan0Interface with
      addresses := [{ wlan0Address with
        address := scanned 50, broadcast := none }] }]

theorem nodup_neighbourCards :
    (neighbourCards.map Interface.name).Nodup := by decide

theorem neighbourCards_ne_lo : ∀ i ∈ neighbourCards, i.name ≠ loName := by
  have hnames : ∀ name ∈ neighbourCards.map Interface.name, name ≠ loName := by
    decide
  exact fun i hi => hnames _ (List.mem_map_of_mem hi)

def neighbourMachine : Machine :=
  { twoCardMachine with
    interfaces := neighbourCards, distinct := nodup_neighbourCards,
    not_lo := neighbourCards_ne_lo }

/-- The address of `wlan0` is listed and suggested. -/
theorem foundIps_avoids_own_neighbour :
    (¬ ∀ q, neighbourMachine.Carries q →
        q.text ∉ neighbourMachine.foundIps fun _ => true) ∧
      (scanned 50).text ∈ FindLivoxIp.suggestedIps false
        (neighbourMachine.foundIps fun _ => true) := by
  obtain ⟨havoids, hother⟩ :=
    @foundIps_avoids_own_iff (fun _ => true) neighbourMachine fun _ _ => rfl
  have hcarries : neighbourMachine.Carries (scanned 50) :=
    ⟨_, List.mem_cons_of_mem _ (List.mem_cons_of_mem _ List.mem_cons_self),
      _, List.mem_cons_self, rfl⟩
  have hhost : neighbourMachine.hostAddress? ≠ some (scanned 50) := by
    decide +kernel
  obtain ⟨-, hsuggested⟩ :=
    hother 50 (by decide) (by decide) hcarries hhost
  refine ⟨fun hnone => hhost ?_, (hsuggested false).mpr rfl⟩
  exact havoids.mp hnone 50 (by decide) (by decide) hcarries

theorem isLivox_eq_looksLivox (table : List ArpEntry) (q : Quad) :
    FixLivoxIp.isLivox (arp table) q.text = looksLivox table q := by
  rw [Bool.eq_iff_iff, isLivox_arp, looksLivox, Option.any_eq_true]
  simp

/-- The fallback picks the first address of its range that answers and looks
like a device in the table as it is then. -/
theorem scanNetwork_arp (ping : Text → Bool)
    (tableAfter : Text → List ArpEntry) (range : List Nat) :
    FixLivoxIp.scanNetwork ping (fun ip => arp (tableAfter ip)) range =
      addressText ((range.map scanned).find? fun q =>
        ping q.text && looksLivox (tableAfter q.text) q) := by
  induction range with
  | nil => rfl
  | cons n ns ih =>
      have htext : "192.168.1.".toList ++ Nat.toDigits 10 n =
          (scanned n).text := scanned_text n
      rw [FixLivoxIp.scanNetwork, htext, isLivox_eq_looksLivox, ih,
        List.map_cons, List.find?_cons]
      cases ping (scanned n).text && looksLivox (tableAfter (scanned n).text)
        (scanned n) <;> rfl

/-- What the fallback picks, section [8] of `find_livox_ip.sh` suggests, unless
it takes the address for the machine's own. -/
theorem scanNetwork_eq_iff (m : Machine) (ping : Text → Bool)
    (tableAfter : Text → List ArpEntry) (n : Nat) :
    (FixLivoxIp.scanNetwork ping (fun ip => arp (tableAfter ip))
        (List.range' 150 51) = (scanned n).text ↔
      FirstLivox ping tableAfter n) ∧
    (FirstLivox ping tableAfter n →
      (scanned n).text ∈ FindLivoxIp.suggestedIps false (m.foundIps ping) ∨
        m.hostAddress? = some (scanned n)) := by
  have hfind : FixLivoxIp.scanNetwork ping (fun ip => arp (tableAfter ip))
      (List.range' 150 51) =
        addressText (((List.range' 150 51).find? fun n =>
          ping (scanned n).text &&
            looksLivox (tableAfter (scanned n).text) (scanned n)).map
              scanned) := by
    rw [scanNetwork_arp, List.find?_map]
    rfl
  have hfirst : ((List.range' 150 51).find? fun n => ping (scanned n).text &&
      looksLivox (tableAfter (scanned n).text) (scanned n)) = some n ↔
        FirstLivox ping tableAfter n := by
    rw [List.find?_range'_eq_some, List.mem_range'_1, Bool.and_eq_true]
    constructor
    · rintro ⟨haccepted, hrange, hleast⟩
      refine ⟨⟨hrange.1, by omega⟩, haccepted, fun k hlow hk hping => ?_⟩
      simpa [hping] using hleast k hlow hk
    · rintro ⟨hrange, haccepted, hleast⟩
      refine ⟨haccepted, ⟨hrange.1, by omega⟩, fun k hlow hk => ?_⟩
      cases hping : ping (scanned k).text with
      | false => rfl
      | true => simp [hleast k hlow hk hping]
  constructor
  · rw [hfind, ← hfirst]
    cases (List.range' 150 51).find? fun n => ping (scanned n).text &&
        looksLivox (tableAfter (scanned n).text) (scanned n) with
    | none => simp [addressText, Ne.symm (Quad.text_ne_nil _)]
    | some k =>
        rw [Option.map_some, addressText_some_inj, Option.some.injEq]
        exact ⟨scanned_injective, congrArg scanned⟩
  · rintro ⟨hrange, haccepted, -⟩
    have hall : FindLivoxIp.suggestedIps false (m.foundIps ping) =
        m.foundIps ping := if_neg (by decide)
    rw [hall, mem_foundIps_scanned]
    by_cases hown : m.hostAddress? = some (scanned n)
    · exact Or.inr hown
    · exact Or.inl ⟨⟨by omega, by omega⟩, hown, haccepted.1⟩

end LivoxScripts
