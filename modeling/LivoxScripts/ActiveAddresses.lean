/-
Section [2] of `find_livox_ip.sh`: when its loop prints every known neighbour
with the neighbour's own MAC address.
-/
import LivoxScripts.FindLivoxIp

namespace LivoxScripts

open TextTools FindLivoxIp

/-- The pairs of the complete entries, each once. -/
def PairsOf (table : List ArpEntry) (pairs : List (Text × Text)) : Prop :=
  pairs.Perm ((resolved table).map fun e => (e.address.text, e.mac.text))

/-- What the loop needs of a table: no interface name keeps a line out or
brings an address in, and the first complete entry in whose line an address is
found carries the MAC address of that address. -/
structure OwnMacs (table : List ArpEntry) : Prop where
  listed : ∀ e ∈ resolved table, incompleteWord <:+: e.iface.1 →
    ∃ e' ∈ resolved table, ¬ incompleteWord <:+: e'.iface.1 ∧
      e.address.text ∈ quadsIn e'.iface.1
  known : ∀ e ∈ resolved table, ¬ incompleteWord <:+: e.iface.1 →
    ∀ ip ∈ quadsIn e.iface.1, ∃ e' ∈ resolved table, ip = e'.address.text
  own : ∀ e ∈ resolved table, ∀ found,
    (resolved table).find? (Resembles e.address ·.line) = some found →
      found.mac = e.mac

section Loop

variable {table : List ArpEntry}

/-- The addresses in the lines that `grep -v incomplete` keeps. -/
theorem mem_activeLines {ip : Text} :
    ip ∈ lines (sortU (grepO .perl quadPattern
        (grepV (.lit incompleteWord) (arp table)))) ↔
      ∃ e ∈ resolved table, ¬ incompleteWord <:+: e.iface.1 ∧
        (ip = e.address.text ∨ ip ∈ quadsIn e.iface.1) := by
  rw [lines_sortU, List.mem_mergeSort, List.mem_dedup, lines_grepO,
    lines_grepV, lines_arp, List.mem_flatMap]
  have hquads : ∀ e : Resolved,
      ip ∈ quadPattern.onlyMatching .perl e.line ↔
        ip = e.address.text ∨ ip ∈ quadsIn e.iface.1 := by
    intro e
    change ip ∈ quadsIn e.line ↔ _
    rw [quadsIn_resolved, List.mem_cons]
  constructor
  · rintro ⟨l, hl, hip⟩
    obtain ⟨hl, hkept⟩ := List.mem_filter.mp hl
    obtain ⟨entry, hentry, rfl⟩ := List.mem_map.mp hl
    have hword : ¬ (Regex.lit incompleteWord).search true entry.line = true :=
      by simpa using hkept
    rw [search_incomplete] at hword
    cases entry with
    | complete e =>
        refine ⟨e, mem_resolved.mpr hentry, fun h => hword ?_,
          (hquads e).mp hip⟩
        intro e' he'
        obtain rfl := ArpEntry.complete.inj he'
        exact h
    | incomplete n => exact absurd (fun e he => by cases he) hword
  · rintro ⟨e, he, hword, hip⟩
    refine ⟨e.line, List.mem_filter.mpr ⟨List.mem_map.mpr
      ⟨.complete e, mem_resolved.mp he, rfl⟩, ?_⟩, (hquads e).mpr hip⟩
    have hsearch : ¬ (Regex.lit incompleteWord).search true e.line = true :=
      (search_incomplete (.complete e)).not.mpr fun h => hword (h e rfl)
    simpa using hsearch

/-- The loop runs over the captured lines. -/
theorem shellWords_activeIps :
    shellWords (activeIps (arp table)) =
      lines (sortU (grepO .perl quadPattern
        (grepV (.lit incompleteWord) (arp table)))) := by
  rw [activeIps, sortU, shellWords_commandSubst, lines_unlines]
  all_goals
    intro l hl
    rw [List.mem_mergeSort, List.mem_dedup, lines_grepO,
      List.mem_flatMap] at hl
    obtain ⟨line, -, hl⟩ := hl
    obtain ⟨hne, lead, hlang⟩ :=
      Regex.mem_lang_of_mem_onlyMatching quadPattern_plain hl
    obtain ⟨q, hq⟩ := mem_lang_quadPattern.mp hlang
    have hchars : ∀ c ∈ l, isAddressChar c = true := fun c hc =>
      isAddressChar_of_mem (q := q) (hq ▸ List.mem_append_right lead hc)
    have hnot : ∀ c, isAddressChar c = false → c ∉ l := fun c hc hmem => by
      simp [hchars c hmem] at hc
  · exact hnot '\n' (by decide)
  · refine ⟨hne, fun c hc => ?_⟩
    have hblank := hnot ' ' (by decide)
    have htab := hnot '\t' (by decide)
    have hline := hnot '\n' (by decide)
    have hne : c ≠ ' ' ∧ c ≠ '\t' ∧ c ≠ '\n' :=
      ⟨fun h => hblank (h ▸ hc), fun h => htab (h ▸ hc),
        fun h => hline (h ▸ hc)⟩
    simp [isBlank, hne]

/-- What the loop prints. -/
theorem activePairs_eq :
    activePairs (arp table) =
      (lines (sortU (grepO .perl quadPattern
        (grepV (.lit incompleteWord) (arp table))))).map
          fun ip => (ip, macLookup (arp table) ip) := by
  rw [activePairs, ← shellWords_activeIps]
  split
  · next hempty =>
      rw [List.isEmpty_iff.mp hempty]
      rfl
  · rfl

theorem nodup_activeLines (table : List ArpEntry) :
    (lines (sortU (grepO .perl quadPattern
      (grepV (.lit incompleteWord) (arp table))))).Nodup := by
  rw [lines_sortU]
  exact (List.mergeSort_perm _ _).nodup_iff.mpr (List.nodup_dedup _)

/-- The MAC address of an entry is printed with its address when the first
entry the address is found in carries it. -/
theorem macLookup_eq_iff {e : Resolved} (he : e ∈ resolved table) :
    macLookup (arp table) e.address.text = e.mac.text ↔
      ∀ found, (resolved table).find? (Resembles e.address ·.line) =
        some found → found.mac = e.mac := by
  obtain ⟨found, hfound⟩ := exists_resembling he
  rw [macLookup_arp, hfound]
  constructor
  · intro h found' hfound'
    obtain rfl := Option.some.inj hfound'
    exact Mac.text_injective h
  · intro h
    exact congrArg Mac.text (h found rfl)

theorem resolved_sublist :
    ((resolved table).map (·.address)).Sublist
      (table.map (·.neighbor.address)) := by
  induction table with
  | nil => exact List.Sublist.refl _
  | cons entry table ih =>
      cases entry with
      | complete e => exact ih.cons_cons _
      | incomplete n => exact ih.cons _

section Distinct

variable (hdistinct : (table.map (·.neighbor.address)).Nodup)

include hdistinct

theorem nodup_resolved :
    ((resolved table).map fun e => e.address.text).Nodup := by
  have hnodup := (hdistinct.sublist resolved_sublist).map
    fun _ _ => Quad.text_injective
  rwa [List.map_map] at hnodup

theorem eq_of_address {e e' : Resolved} (he : e ∈ resolved table)
    (he' : e' ∈ resolved table) (h : e.address.text = e'.address.text) :
    e = e' :=
  List.inj_on_of_nodup_map (nodup_resolved hdistinct) he he' h

/-- The addresses of the loop are those of the complete entries exactly when
no interface name interferes. -/
theorem mem_activeLines_iff :
    (∀ ip, ip ∈ lines (sortU (grepO .perl quadPattern
        (grepV (.lit incompleteWord) (arp table)))) ↔
          ∃ e ∈ resolved table, e.address.text = ip) ↔
      (∀ e ∈ resolved table, incompleteWord <:+: e.iface.1 →
        ∃ e' ∈ resolved table, ¬ incompleteWord <:+: e'.iface.1 ∧
          e.address.text ∈ quadsIn e'.iface.1) ∧
      ∀ e ∈ resolved table, ¬ incompleteWord <:+: e.iface.1 →
        ∀ ip ∈ quadsIn e.iface.1,
          ∃ e' ∈ resolved table, ip = e'.address.text := by
  simp only [mem_activeLines]
  constructor
  · intro h
    refine ⟨fun e he hword => ?_, fun e he hkept ip hip => ?_⟩
    · obtain ⟨e', he', hkept, haddress | hquad⟩ := (h _).mpr ⟨e, he, rfl⟩
      · obtain rfl := eq_of_address hdistinct he he' haddress
        exact absurd hword hkept
      · exact ⟨e', he', hkept, hquad⟩
    · obtain ⟨e', he', heq⟩ := (h ip).mp ⟨e, he, hkept, Or.inr hip⟩
      exact ⟨e', he', heq.symm⟩
  · rintro ⟨hlisted, hknown⟩ ip
    constructor
    · rintro ⟨e, he, hkept, rfl | hquad⟩
      · exact ⟨e, he, rfl⟩
      · obtain ⟨e', he', rfl⟩ := hknown e he hkept ip hquad
        exact ⟨e', he', rfl⟩
    · rintro ⟨e, he, rfl⟩
      by_cases hword : incompleteWord <:+: e.iface.1
      · obtain ⟨e', he', hkept, hquad⟩ := hlisted e he hword
        exact ⟨e', he', hkept, Or.inr hquad⟩
      · exact ⟨e, he, hword, Or.inl rfl⟩

end Distinct

/-- The loop prints the pairs of the complete entries exactly when the table
lets it tell their addresses apart. -/
theorem pairsOf_activePairs_iff
    (hdistinct : (table.map (·.neighbor.address)).Nodup) :
    PairsOf table (activePairs (arp table)) ↔ OwnMacs table := by
  have hnodup := nodup_activeLines table
  have hmem := mem_activeLines_iff hdistinct
  have hnodupPairs : ((resolved table).map fun e =>
      (e.address.text, e.mac.text)).Nodup := by
    apply List.Nodup.of_map Prod.fst
    rw [List.map_map]
    exact nodup_resolved hdistinct
  rw [PairsOf, activePairs_eq]
  generalize lines (sortU (grepO .perl quadPattern
    (grepV (.lit incompleteWord) (arp table)))) = active at hnodup hmem ⊢
  constructor
  · intro hperm
    have haddresses := hperm.map Prod.fst
    simp only [List.map_map, Function.comp_def, List.map_id'] at haddresses
    obtain ⟨hlisted, hknown⟩ := hmem.mp fun ip => by
      rw [haddresses.mem_iff, List.mem_map]
    refine ⟨hlisted, hknown, fun e he => ?_⟩
    rw [← macLookup_eq_iff he]
    have hpair := hperm.mem_iff.mpr (List.mem_map_of_mem he)
    obtain ⟨ip, -, hip⟩ := List.mem_map.mp hpair
    obtain ⟨rfl, hmac⟩ := Prod.mk.inj hip
    exact hmac
  · rintro ⟨hlisted, hknown, hown⟩
    have hactive := hmem.mpr ⟨hlisted, hknown⟩
    have hmac : ∀ e ∈ resolved table,
        macLookup (arp table) e.address.text = e.mac.text := fun e he =>
      (macLookup_eq_iff he).mpr (hown e he)
    have hnodupActive : (active.map fun ip =>
        (ip, macLookup (arp table) ip)).Nodup :=
      hnodup.map fun _ _ h => (Prod.mk.inj h).1
    rw [List.perm_ext_iff_of_nodup hnodupActive hnodupPairs]
    intro pair
    simp only [List.mem_map, hactive]
    constructor
    · rintro ⟨_, ⟨e, he, rfl⟩, rfl⟩
      exact ⟨e, he, by rw [hmac e he]⟩
    · rintro ⟨e, he, rfl⟩
      exact ⟨_, ⟨e, he, rfl⟩, by rw [hmac e he]⟩

end Loop

/-- Two complete entries, in this order. -/
def pairTable (m n : Nat) : List ArpEntry :=
  [.complete ⟨⟨unnamed, quad 192 168 1 m, eth0⟩, macOf 0 0 0 0 0 0⟩,
    .complete ⟨⟨unnamed, quad 192 168 1 n, eth0⟩, macOf 0 0 0 0 0 1⟩]

theorem pairsOf_activePairs_pair :
    PairsOf (pairTable 1 10) (activePairs (arp (pairTable 1 10))) := by
  have heth : ∀ e ∈ resolved (pairTable 1 10), e.iface = eth0 := by
    simp [resolved, pairTable, ArpEntry.resolved?]
  refine (pairsOf_activePairs_iff (by decide)).mpr ⟨?_, ?_, ?_⟩
  · intro e he hword
    rw [heth e he] at hword
    exact absurd hword (not_incomplete_of_not_mem (by decide))
  · intro e he _ ip hip
    rw [heth e he, quadsIn,
      onlyMatching_of_noQuad (noQuad_of_no_dot (by decide))] at hip
    exact absurd hip List.not_mem_nil
  · intro e he
    refine (macLookup_eq_iff he).mp ?_
    simp only [resolved, pairTable, ArpEntry.resolved?, List.filterMap_cons,
      List.filterMap_nil, List.mem_cons, List.not_mem_nil, or_false] at he
    rcases he with rfl | rfl
    · decide +kernel
    · decide +kernel

/-- `192.168.1.1` is also found in the line of `192.168.1.10`. -/
theorem not_pairsOf_activePairs_pair :
    ((pairTable 10 1).map (·.neighbor.address)).Nodup ∧
      ¬ PairsOf (pairTable 10 1) (activePairs (arp (pairTable 10 1))) := by
  refine ⟨by decide, fun hperm => ?_⟩
  have hmem : ((quad 192 168 1 1).text, (macOf 0 0 0 0 0 1).text) ∈
      activePairs (arp (pairTable 10 1)) :=
    hperm.mem_iff.mpr (List.mem_map.mpr
      ⟨⟨⟨unnamed, quad 192 168 1 1, eth0⟩, macOf 0 0 0 0 0 1⟩,
        mem_resolved.mpr (by simp [pairTable]), rfl⟩)
  rw [activePairs_eq] at hmem
  obtain ⟨ip, -, hip⟩ := List.mem_map.mp hmem
  obtain ⟨rfl, hmac⟩ := Prod.mk.inj hip
  have hother : macLookup (arp (pairTable 10 1)) (quad 192 168 1 1).text =
      (macOf 0 0 0 0 0 0).text := by decide +kernel
  exact absurd (hmac.symm.trans hother) (by decide)

end LivoxScripts
