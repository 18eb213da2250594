/-
The socket listings of `ss` and `netstat`, and the search for a port that the
scripts do in them.
-/
import LivoxScripts.Machine

namespace LivoxScripts

open TextTools

/-- A text of one line in which no digit follows a colon: a heading, or the
peer of a socket that waits for anybody. -/
abbrev PeerText :=
  { t : Text // '\n' ∉ t ∧ ∀ d, d.isDigit = true → ¬ [':', d] <:+: t }

/-- A socket with the line it has in a listing: the columns before its address,
the address, which may hold colons, its port, and what follows. -/
structure Socket where
  columns : { t : Text // '\n' ∉ t ∧ ':' ∉ t }
  address : { t : Text // '\n' ∉ t ∧ ' ' ∉ t }
  port : Nat
  peer : PeerText

def portText (port : Nat) : Text := Nat.toDigits 10 port

def Socket.line (s : Socket) : Text :=
  s.columns.1 ++ (s.address.1 ++ ':' :: (portText s.port ++ ' ' :: s.peer.1))

/-- What `ss` or `netstat` prints. -/
structure SocketTable where
  headings : List PeerText
  sockets : List Socket

namespace SocketTable

def listing (table : SocketTable) : Text :=
  unlines (table.headings.map Subtype.val ++ table.sockets.map Socket.line)

/-- Some socket is bound to the port. -/
def Binds (table : SocketTable) (port : Nat) : Prop :=
  ∃ s ∈ table.sockets, s.port = port

instance (table : SocketTable) : DecidablePred table.Binds := fun port =>
  inferInstanceAs (Decidable (∃ s ∈ table.sockets, s.port = port))

end SocketTable

/-- `:port `, the pattern of `grep -q` -/
def portPattern (port : Nat) : Regex := .lit (':' :: (portText port ++ [' ']))

/-- A loop over ports that asks for each whether it is found in a listing. -/
def portReports (ports : List Nat) (listing : Text) : List (Nat × Bool) :=
  ports.map fun port => (port, grepQ (portPattern port) listing)

variable {s : Socket} {table : SocketTable} {port : Nat}

/-- A word with the separator after it ends a piece, or comes later. -/
theorem infix_terminated_iff {x : Char} {u a rest : Text} (hu : x ∉ u)
    (ha : x ∉ a) :
    u ++ [x] <:+: a ++ x :: rest ↔ u <:+ a ∨ u ++ [x] <:+: rest := by
  have hstart : ∀ a, x ∉ a → (u ++ [x] <+: a ++ x :: rest ↔ u = a) := by
    intro a ha
    constructor
    · rintro ⟨t, ht⟩
      rw [List.append_assoc, List.singleton_append] at ht
      exact eq_of_append_cons hu ha ht
    · rintro rfl
      exact ⟨rest, by simp⟩
  induction a with
  | nil =>
      rw [List.nil_append, List.infix_cons_iff, List.suffix_nil]
      exact or_congr_left (hstart [] (by simp))
  | cons c cs ih =>
      have hcs := ih fun h => ha (List.mem_cons_of_mem c h)
      have hhead := hstart (c :: cs) ha
      rw [List.cons_append] at hhead ⊢
      rw [List.infix_cons_iff, hhead, List.suffix_cons_iff, or_assoc]
      exact or_congr_right hcs

theorem isDigit_of_mem_portText (port : Nat) {c : Char} (hc : c ∈ portText port) :
    c.isDigit = true :=
  Nat.isDigit_of_mem_toDigits (by decide) (by decide) hc

theorem not_mem_portText (port : Nat) {c : Char} (hc : c.isDigit = false) :
    c ∉ portText port := fun hmem => by
  simp [isDigit_of_mem_portText port hmem] at hc

theorem portText_injective {port port' : Nat}
    (h : portText port = portText port') : port = port' := by
  have hvalue := congrArg (Nat.ofDigitChars 10 · 0) h
  simpa [portText, Nat.ofDigitChars_ten_toDigits] using hvalue

/-- A port is found in no text of a peer. -/
theorem not_infix_peer (t : PeerText) :
    ¬ ':' :: (portText port ++ [' ']) <:+: t.1 := by
  intro h
  obtain ⟨d, ds, hds⟩ := List.exists_cons_of_ne_nil
    (Nat.toDigits_ne_nil : Nat.toDigits 10 port ≠ [])
  have htext : portText port = d :: ds := hds
  have hd : d.isDigit = true := isDigit_of_mem_portText port (by
    rw [htext]
    exact List.mem_cons_self)
  refine t.2.2 d hd (List.IsInfix.trans ?_ h)
  rw [htext]
  exact (List.prefix_append [':', d] (ds ++ [' '])).isInfix

theorem newline_not_mem_socket (s : Socket) : '\n' ∉ s.line := by
  have hport := not_mem_portText s.port (c := '\n') (by decide)
  have hcolumns := s.columns.2.1
  have haddress := s.address.2.1
  have hpeer := s.peer.2.1
  simp [Socket.line, hcolumns, haddress, hport, hpeer]

/-- In the line of a socket its own port is found and no other. -/
theorem infix_portLine_iff :
    ':' :: (portText port ++ [' ']) <:+: s.line ↔ s.port = port := by
  have hnoBlank : ' ' ∉ ':' :: portText port := by
    simp [not_mem_portText port (c := ' ') (by decide)]
  have hlocal : ' ' ∉ s.address.1 ++ ':' :: portText s.port := by
    have hport := not_mem_portText s.port (c := ' ') (by decide)
    have haddress := s.address.2.2
    simp [hport, haddress]
  have hline : s.line = s.columns.1 ++
      ((s.address.1 ++ ':' :: portText s.port) ++ ' ' :: s.peer.1) := by
    simp [Socket.line]
  constructor
  · intro h
    rw [hline] at h
    have hbody := infix_append_of_not_mem s.columns.2.2 h
    rw [← List.cons_append, infix_terminated_iff hnoBlank hlocal] at hbody
    rcases hbody with ⟨t, ht⟩ | hpeer
    · have hcolon : ':' ∉ portText port := not_mem_portText _ (by decide)
      have hcolon' : ':' ∉ portText s.port := not_mem_portText _ (by decide)
      have hreverse : (portText port).reverse ++ ':' :: t.reverse =
          (portText s.port).reverse ++ ':' :: s.address.1.reverse := by
        simpa using congrArg List.reverse ht
      have hsame := eq_of_append_cons (by simpa using hcolon)
        (by simpa using hcolon') hreverse
      exact (portText_injective (List.reverse_inj.mp hsame)).symm
    · exact absurd hpeer (not_infix_peer s.peer)
  · rintro rfl
    refine ⟨s.columns.1 ++ s.address.1, s.peer.1, ?_⟩
    simp [Socket.line]

/-- The search tells exactly which ports are bound. -/
theorem grepQ_portPattern (table : SocketTable) (port : Nat) :
    grepQ (portPattern port) table.listing = decide (table.Binds port) := by
  have hlines : lines table.listing =
      table.headings.map Subtype.val ++ table.sockets.map Socket.line := by
    apply lines_unlines
    intro l hl
    rcases List.mem_append.mp hl with hl | hl
    · obtain ⟨t, -, rfl⟩ := List.mem_map.mp hl
      exact t.2.1
    · obtain ⟨s, -, rfl⟩ := List.mem_map.mp hl
      exact newline_not_mem_socket s
  rw [grepQ, hlines, Bool.eq_iff_iff, decide_eq_true_iff, List.any_append,
    Bool.or_eq_true, List.any_map, List.any_map, List.any_eq_true,
    List.any_eq_true]
  simp only [Function.comp_apply, portPattern, Regex.search_lit,
    infix_portLine_iff, not_infix_peer, and_false, exists_false, false_or]
  rfl

theorem portReports_eq (ports : List Nat) (table : SocketTable) :
    portReports ports table.listing =
      ports.map fun port => (port, decide (table.Binds port)) :=
  List.map_congr_left fun port _ => by rw [grepQ_portPattern]

end LivoxScripts
