import TftpHpa.Common.Address
import TftpHpa.Common.Pollset

/-! Where the server listens (`tftpd/listen.c`), and which of its addresses a request is answered
from (`tftpd/recvfrom.c` and the loop of `main`). -/

namespace TftpHpa

/-! ### Names to listen at -/

/-- The service behind a host, if there is one. -/
def serviceAt (np : Bytes) : Option Bytes := if np.head? = some colon then some np.tail else none

/-- The host and the service in a name that is given to `listen_to`. -/
def listenName : Bytes → Bytes × Option Bytes
  | [] => ([], none)
  | b :: np =>
    if b = 91 then
      match strchr 93 np with
      | none => (np, none)
      | some (host, np) => (host, serviceAt np)
    else if b = 42 then ([], serviceAt np)
    else if b = colon then ([], some np)
    else match strchr colon (b :: np) with
      | none => (b :: np, none)
      | some (host, service) => (host, some service)

/-- What `getaddrinfo` is asked for; no host stands for any address. -/
def listenArgs (defaultService name : Bytes) : Option Bytes × Bytes :=
  let (host, service) := listenName name
  (if host = [] then none else some host, if service.getD [] = [] then defaultService else service.getD [])

/-! ### Sockets to listen at -/

structure AddrInfo where
  dgram : Bool
  addr : SockAddr

/-- What the system answers to `getaddrinfo`, `socket` and `bind`, given the sockets there are so far
and whether they are bound; errors are those of `errno`. -/
structure ListenSystem where
  getaddrinfo : Option Bytes → Bytes → Option (List AddrInfo)
  socket : List (ℤ × Bool) → AddrInfo → Except ℕ ℤ
  bind : List (ℤ × Bool) → ℤ → SockAddr → Except ℕ Unit

/-- The sockets that are polled, and all that have been opened. -/
structure Listening where
  set : Pollset := Pollset.new
  sockets : List (ℤ × Bool) := []

/-- The loop of `listen_to`. A socket that cannot be bound is not closed. -/
def listenLoop (w : ListenSystem) (aiFam : Option AddressFamily) :
    List AddrInfo → Listening → ℕ → ℕ → Option (Listening × ℕ)
  | [], s, err, nsockets => some (s, if nsockets ≠ 0 then 0 else err)
  | ai :: addrs, s, err, nsockets =>
    if aiFam.any (· ≠ ai.addr.family) ∨ ai.dgram = false then listenLoop w aiFam addrs s err nsockets
    else match w.socket s.sockets ai with
      | .error e => listenLoop w aiFam addrs s e nsockets
      | .ok fd =>
        match w.bind s.sockets fd ai.addr with
        | .error e => listenLoop w aiFam addrs { s with sockets := (fd, false) :: s.sockets } e nsockets
        | .ok () =>
          (Pollset.add (some s.set) fd).bind fun set =>
            listenLoop w aiFam addrs ⟨set, (fd, true) :: s.sockets⟩ err (nsockets + 1)

/-- `listen_to`. -/
def listenTo (w : ListenSystem) (service : Bytes) (aiFam : Option AddressFamily) (s : Listening) (name : Bytes) :
    Option (Listening × ℕ) :=
  let (hostname, service) := listenArgs service name
  match w.getaddrinfo hostname service with
  | none => some (s, 2) -- `ENOENT`
  | some addrs => listenLoop w aiFam addrs s 0 0

/-- What `main` does with the addresses that are given: the sockets, unless there is none to listen
at. -/
def listenAll (w : ListenSystem) (service : Bytes) (aiFam : Option AddressFamily) (names : List Bytes) :
    Option Listening :=
  (if names = [] then [[colon]] else names).foldlM (fun s name => (listenTo w service aiFam s name).map Prod.fst) {}

/-! ### The address of a request -/

namespace SockAddr

/-- The same family, with any address and port. -/
def any : SockAddr → SockAddr
  | inet _ _ => inet 0 0
  | inet6 _ _ => inet6 0 0
  | other family => other family

/-- `INADDR_ANY`, or the like. -/
def setAny : SockAddr → SockAddr
  | inet _ port => inet 0 port
  | inet6 _ port => inet6 0 port
  | other family => other family

/-- An IPv4 address that is written as one of IPv6. -/
def mapped : SockAddr → Bool
  | inet6 addr _ => addr.extractLsb' 32 96 = 0xffff
  | _ => false

/-- Any address. -/
def unspecified : SockAddr → Bool
  | inet addr _ => addr = 0
  | inet6 addr _ => addr = 0
  | other _ => false

/-- The addresses are the same. -/
def sameAddr : SockAddr → SockAddr → Bool
  | inet addr _, inet addr' _ => addr = addr'
  | inet6 addr _, inet6 addr' _ => addr = addr'
  | _, _ => false

end SockAddr

/-- `normalize_ip6_compat`. -/
def normalizeIp6Compat : SockAddr → SockAddr
  | .inet6 addr port =>
    if SockAddr.mapped (.inet6 addr port) then .inet (addr.extractLsb' 0 32) port else .inet6 addr port
  | sa => sa

/-- The control messages that come with a request: the address that it was sent to
(`IP_RECVDSTADDR`, `IP_PKTINFO` and `IPV6_PKTINFO`), or anything else. -/
inductive ControlMessage where
  | dst (addr : BitVec 32)
  | dst6 (addr : BitVec 128)
  | other

/-- The loop over the control messages: those that go with the family of the sender. -/
def readControl (src myaddr : SockAddr) (cm : ControlMessage) : SockAddr :=
  match src.family, cm, myaddr with
  | .inet, .dst addr, .inet _ port => .inet addr port
  | .inet6, .dst6 addr, .inet6 _ port => .inet6 addr port
  | _, _, myaddr => myaddr

/-- `address_is_local`; `bindName` is what `getsockname` says after `bind`. -/
def addressIsLocal (bindName : SockAddr → Option SockAddr) : SockAddr → Bool
  | .inet addr _ =>
    if 224 <<< 24 ≤ addr.toNat then false
    else (bindName (.inet addr 0)).any fun sa => sa.sameAddr (.inet addr 0)
  | .inet6 addr _ =>
    if addr.extractLsb' 120 8 = 0xff then false
    else (bindName (.inet6 addr 0)).any fun sa => sa.sameAddr (.inet6 addr 0)
  | .other _ => false

/-- What `recvmsg` returns; the control messages may be missing or cut short. -/
structure Received where
  src : SockAddr
  control : Option (List ControlMessage)

/-- `myrecvfrom`: the sender, and the address it has sent to. -/
def myrecvfrom (bindName : SockAddr → Option SockAddr) (r : Received) : SockAddr × SockAddr :=
  match r.control with
  | none => (r.src, r.src.any)
  | some cms =>
    let myaddr := normalizeIp6Compat (cms.foldl (readControl r.src) r.src.any)
    (normalizeIp6Compat r.src, if addressIsLocal bindName myaddr then myaddr else myaddr.setAny)

/-- The address of `main` for a worker: that of the socket, where `myrecvfrom` has none. In the case
of IPv6 it is the sender that is looked at. -/
def workerAddress (standalone : Bool) (sockname : Option SockAddr) (src myaddr : SockAddr) : SockAddr :=
  if !standalone then myaddr
  else match src, myaddr, sockname with
    | .inet _ _, .inet addr port, some (.inet addr' _) => .inet (if addr = 0 then addr' else addr) port
    | .inet6 addr _, .inet6 myaddr port, some (.inet6 addr' _) => .inet6 (if addr = 0 then addr' else myaddr) port
    | _, _, _ => myaddr

/-! ### Names that are read back -/

/-- A host with a colon in its name stands in brackets. -/
theorem head_of_colon_mem {name : Bytes} (h : colon ∈ (listenName name).1) : name.head? = some 91 := by
  unfold listenName at h
  split at h
  · cases h
  · next b np =>
    split_ifs at h with h91 h42 hcolon
    · exact congrArg some h91
    · cases h
    · cases h
    · split at h
      · next hnone => exact absurd h (strchr_eq_none_iff.mp hnone)
      · next host service hsome => exact absurd h (strchr_eq_some hsome).1

/-- A host of digits and dots ends at the colon. -/
theorem listenName_inet {host : Bytes} (hne : host ≠ []) (hhost : ∀ b ∈ host, b = 46 ∨ Decimal.isDigit b = true)
    (service : Bytes) : listenName (host ++ colon :: service) = (host, some service) := by
  have hnot : ∀ b ∈ host, b ≠ 91 ∧ b ≠ 42 ∧ b ≠ colon := by
    intro b hb
    rcases hhost b hb with rfl | hdigit
    · decide
    · rw [Decimal.isDigit_iff] at hdigit
      refine ⟨?_, ?_, ?_⟩ <;> rintro rfl <;> revert hdigit <;> decide
  have hchr := strchr_append (fun h => (hnot colon h).2.2 rfl) service
  obtain ⟨b, np, rfl⟩ := List.exists_cons_of_ne_nil hne
  obtain ⟨h91, h42, hcolon⟩ := hnot b List.mem_cons_self
  rw [List.cons_append] at hchr ⊢
  rw [listenName, if_neg h91, if_neg h42, if_neg hcolon, hchr]

/-- A host in brackets ends at the closing one. -/
theorem listenName_inet6 {host : Bytes} (hhost : 93 ∉ host) (service : Bytes) :
    listenName (91 :: (host ++ 93 :: colon :: service)) = (host, some service) := by
  rw [listenName, if_pos rfl, strchr_append hhost]
  rfl

/-- What `net_address` writes is read back, host and port, by `listen_to`; without the brackets the
address of a host of IPv6 would not be. -/
theorem listen_name_round_trip {ntop : BitVec 32 → Bytes} {ntop6 : BitVec 128 → Bytes}
    (hntop : ∀ addr, ntop addr ≠ [] ∧ ∀ b ∈ ntop addr, b = 46 ∨ Decimal.isDigit b = true)
    (hntop6 : ∀ addr, ntop6 addr ≠ [] ∧ 93 ∉ ntop6 addr) (defaultService : Bytes) :
    (∀ addr port, listenArgs defaultService (netAddress ntop ntop6 (.inet addr port)) =
      (some (ntop addr), Decimal.numeral port.toNat)) ∧
    (∀ addr port, listenArgs defaultService (netAddress ntop ntop6 (.inet6 addr port)) =
      (some (ntop6 addr), Decimal.numeral port.toNat)) ∧
    ∀ name, colon ∈ (listenName name).1 → name.head? = some 91 := by
  have hport : ∀ port : UInt16, (if Decimal.numeral port.toNat = [] then defaultService
      else Decimal.numeral port.toNat) = Decimal.numeral port.toNat := fun port => if_neg (Decimal.numeral_ne_nil _)
  refine ⟨fun addr port => ?_, fun addr port => ?_, fun name hcolon => ?_⟩
  · obtain ⟨hne, hdigits⟩ := hntop addr
    rw [netAddress, listenArgs, listenName_inet hne hdigits]
    exact Prod.ext (if_neg hne) (hport port)
  · obtain ⟨hne, hbracket⟩ := hntop6 addr
    rw [netAddress, List.cons_append, listenArgs, listenName_inet6 hbracket]
    exact Prod.ext (if_neg hne) (hport port)
  · exact head_of_colon_mem hcolon

/-- A text with digits and dots, and one with colons. -/
theorem listen_name_round_trip_loopback : listenArgs (cstr "tftp")
      (netAddress (fun _ => cstr "127.0.0.1") (fun _ => cstr "::1") (.inet6 1 69)) = (some (cstr "::1"), cstr "69") ∧
    listenName (cstr "::1") = ([], some (cstr ":1")) := by
  have hntop : cstr "127.0.0.1" ≠ [] ∧ ∀ b ∈ cstr "127.0.0.1", b = 46 ∨ Decimal.isDigit b = true := by
    decide +kernel
  have hntop6 : cstr "::1" ≠ [] ∧ 93 ∉ cstr "::1" := by decide
  exact ⟨(listen_name_round_trip (fun _ => hntop) (fun _ => hntop6) (cstr "tftp")).2.1 _ _, by decide⟩

/-! ### The sockets that are polled -/

/-- The set has the sockets that are bound, and no socket was opened twice. -/
structure Listening.Polls (s : Listening) : Prop where
  ordered : s.set.Ordered
  mem_iff : ∀ fd, fd ∈ s.set.members ↔ (fd, true) ∈ s.sockets
  nodup : (s.sockets.map Prod.fst).Nodup

variable {w : ListenSystem} {aiFam : Option AddressFamily} {s s' : Listening} {err : ℕ}

theorem Listening.Polls.listenLoop
    (hsocket : ∀ sockets ai fd, w.socket sockets ai = .ok fd → 0 ≤ fd ∧ fd ∉ sockets.map Prod.fst) (hs : s.Polls)
    (addrs : List AddrInfo) (err nsockets : ℕ) :
    ∃ s' err', listenLoop w aiFam addrs s err nsockets = some (s', err') ∧ s'.Polls := by
  induction addrs generalizing s err nsockets with
  | nil => exact ⟨s, _, rfl, hs⟩
  | cons ai addrs ih =>
    rw [TftpHpa.listenLoop]
    split
    · exact ih hs err nsockets
    · split
      · exact ih hs _ nsockets
      · next fd hfd =>
        obtain ⟨hpos, hnew⟩ := hsocket _ _ _ hfd
        split
        · have hunbound : Listening.Polls ⟨s.set, (fd, false) :: s.sockets⟩ :=
            ⟨hs.ordered, fun x => by rw [hs.mem_iff]; simp, List.nodup_cons.mpr ⟨hnew, hs.nodup⟩⟩
          exact ih hunbound _ nsockets
        · obtain ⟨set, hadd, hordered, hmem⟩ := hs.ordered.add fd
          have hbound : Listening.Polls ⟨set, (fd, true) :: s.sockets⟩ := by
            refine ⟨hordered, fun x => ?_, List.nodup_cons.mpr ⟨hnew, hs.nodup⟩⟩
            rw [hmem, hs.mem_iff, List.mem_cons, Prod.mk.injEq, or_comm]
            simp [hpos]
          rw [hadd]
          exact ih hbound err _

theorem Listening.Polls.listenTo
    (hsocket : ∀ sockets ai fd, w.socket sockets ai = .ok fd → 0 ≤ fd ∧ fd ∉ sockets.map Prod.fst) (hs : s.Polls)
    (service : Bytes) (aiFam : Option AddressFamily) (name : Bytes) :
    ∃ s' err, listenTo w service aiFam s name = some (s', err) ∧ s'.Polls := by
  rw [TftpHpa.listenTo]
  dsimp only
  split
  · exact ⟨s, _, rfl, hs⟩
  · exact hs.listenLoop hsocket _ 0 0

/-- Wherever it is told to listen, the server polls the sockets it could bind and no other. A socket
that it could not bind stays open all the same. -/
theorem listen_polls_bound
    (hsocket : ∀ sockets ai fd, w.socket sockets ai = .ok fd → 0 ≤ fd ∧ fd ∉ sockets.map Prod.fst)
    (service : Bytes) (aiFam : Option AddressFamily) (names : List Bytes) :
    ∃ s, listenAll w service aiFam names = some s ∧ (∀ fd, fd ∈ s.set.members ↔ (fd, true) ∈ s.sockets) ∧
      ∀ fd, (fd, false) ∈ s.sockets → fd ∉ s.set.members := by
  have hfold : ∀ (names : List Bytes) (s : Listening), s.Polls → ∃ s',
      names.foldlM (fun s name => (TftpHpa.listenTo w service aiFam s name).map Prod.fst) s = some s' ∧ s'.Polls := by
    intro names
    induction names with
    | nil => exact fun s hs => ⟨s, rfl, hs⟩
    | cons name names ih =>
      intro s hs
      obtain ⟨s₁, err, hlisten, hs₁⟩ := hs.listenTo hsocket service aiFam name
      rw [List.foldlM_cons, hlisten]
      exact ih s₁ hs₁
  have hstart : Listening.Polls {} :=
    ⟨Pollset.new_ordered, fun fd => by simp [Pollset.members, Pollset.new], List.nodup_nil⟩
  obtain ⟨s, hs, hpolls⟩ := hfold (if names = [] then [[colon]] else names) {} hstart
  refine ⟨s, hs, hpolls.mem_iff, fun fd hunbound hmem => ?_⟩
  have heq := List.inj_on_of_nodup_map hpolls.nodup hunbound ((hpolls.mem_iff fd).mp hmem) rfl
  cases heq

/-- A system where every host has two addresses, one of which cannot be bound. -/
def twoAddresses : ListenSystem where
  getaddrinfo _ _ := some [⟨true, .inet 0x7f000001 69⟩, ⟨true, .inet6 1 69⟩]
  socket sockets _ :=
    if (sockets.length + 3 : ℤ) ∈ sockets.map Prod.fst then .error 24 else .ok (sockets.length + 3)
  bind _ _ addr := if addr.family = .inet then .ok () else .error 99

theorem listen_polls_bound_two : ∃ s, listenAll twoAddresses (cstr "tftp") none [] = some s ∧
    (4, false) ∈ s.sockets ∧ 3 ∈ s.set.members ∧ 4 ∉ s.set.members := by
  have hsocket : ∀ sockets ai fd, twoAddresses.socket sockets ai = .ok fd → 0 ≤ fd ∧ fd ∉ sockets.map Prod.fst := by
    intro sockets ai fd h
    simp only [twoAddresses] at h
    split_ifs at h with hmem
    cases h
    exact ⟨by omega, hmem⟩
  obtain ⟨s, hs, hmem, hunbound⟩ := listen_polls_bound hsocket (cstr "tftp") none []
  have hsockets : (listenAll twoAddresses (cstr "tftp") none []).map Listening.sockets =
      some [(4, false), (3, true)] := by decide +kernel
  rw [hs] at hsockets
  have heq : s.sockets = [(4, false), (3, true)] := Option.some.inj hsockets
  exact ⟨s, hs, by simp [heq], (hmem 3).mpr (by simp [heq]), hunbound 4 (by simp [heq])⟩

/-! ### The socket of a worker -/

/-- The address that a request was sent to, as a control message says. -/
def reportedBy (src : SockAddr) (cm : ControlMessage) : Option SockAddr :=
  match src.family, cm with
  | .inet, .dst addr => some (.inet addr 0)
  | .inet6, .dst6 addr => some (.inet6 addr 0)
  | _, _ => none

/-- The last one counts. -/
def reported (src : SockAddr) (cms : List ControlMessage) : Option SockAddr := (cms.filterMap (reportedBy src)).getLast?

/-- An address of the family of the sender, without a port. -/
def Matches (src myaddr : SockAddr) : Prop := myaddr = src.any ∨ ∃ cm, reportedBy src cm = some myaddr

theorem Matches.readControl {src myaddr : SockAddr} (h : Matches src myaddr) (cm : ControlMessage) :
    readControl src myaddr cm = (reportedBy src cm).getD myaddr := by
  rcases h with rfl | ⟨cm', h⟩
  · cases src <;> cases cm <;> rfl
  · cases src <;> cases cm' <;> cases h <;> cases cm <;> rfl

theorem foldl_readControl {src myaddr : SockAddr} (h : Matches src myaddr) (cms : List ControlMessage) :
    cms.foldl (readControl src) myaddr = (reported src cms).getD myaddr := by
  induction cms generalizing myaddr with
  | nil => rfl
  | cons cm cms ih =>
    rw [List.foldl_cons, h.readControl, reported, List.filterMap_cons]
    cases hcm : reportedBy src cm with
    | none => exact ih h
    | some sa =>
      rw [List.getLast?_cons]
      exact ih (.inr ⟨cm, hcm⟩)

theorem matches_reported (src : SockAddr) (cms : List ControlMessage) :
    Matches src ((reported src cms).getD src.any) := by
  cases h : reported src cms with
  | none => exact .inl rfl
  | some sa =>
    obtain ⟨cm, -, hcm⟩ := List.mem_filterMap.mp (List.mem_of_getLast? h)
    exact .inr ⟨cm, hcm⟩

theorem Matches.family_eq {src myaddr : SockAddr} (h : Matches src myaddr) : myaddr.family = src.family := by
  rcases h with rfl | ⟨cm, h⟩
  · cases src <;> rfl
  · cases src <;> cases cm <;> cases h <;> rfl

theorem family_normalizeIp6Compat (sa : SockAddr) :
    (normalizeIp6Compat sa).family = if sa.mapped then .inet else sa.family := by
  cases sa with
  | inet6 addr port =>
    rw [normalizeIp6Compat]
    split_ifs <;> rfl
  | _ => rfl

theorem family_setAny (sa : SockAddr) : sa.setAny.family = sa.family := by cases sa <;> rfl

theorem family_workerAddress (standalone : Bool) (sockname : Option SockAddr) (src myaddr : SockAddr) :
    (workerAddress standalone sockname src myaddr).family = myaddr.family := by
  unfold workerAddress
  split
  · rfl
  · split <;> rfl

theorem SockAddr.mapped_eq_false_of_family {sa : SockAddr} (h : sa.family ≠ .inet6) : sa.mapped = false := by
  cases sa with
  | inet6 => exact absurd rfl h
  | _ => rfl

theorem Matches.family_normalize_iff {src myaddr : SockAddr} (h : Matches src myaddr) :
    (normalizeIp6Compat myaddr).family = (normalizeIp6Compat src).family ↔ myaddr.mapped = src.mapped := by
  rw [family_normalizeIp6Compat, family_normalizeIp6Compat, h.family_eq]
  by_cases hfamily : src.family = .inet6
  · rw [hfamily]
    cases myaddr.mapped <;> cases src.mapped <;> decide
  · rw [SockAddr.mapped_eq_false_of_family hfamily, SockAddr.mapped_eq_false_of_family (h.family_eq ▸ hfamily)]
    simp

/-- When the two addresses of a request are of one family. -/
theorem family_myrecvfrom_iff {bindName : SockAddr → Option SockAddr} {r : Received} {src myaddr : SockAddr}
    (h : myrecvfrom bindName r = (src, myaddr)) :
    myaddr.family = src.family ↔
      ∀ cms, r.control = some cms → ((reported r.src cms).getD r.src.any).mapped = r.src.mapped := by
  rw [myrecvfrom] at h
  split at h
  · next hcontrol =>
    cases h
    simp only [hcontrol, reduceCtorEq, false_implies, implies_true, iff_true]
    exact Matches.family_eq (.inl rfl)
  · next cms hcontrol =>
    cases h
    simp only [hcontrol, Option.some.injEq, forall_eq']
    rw [apply_ite SockAddr.family, family_setAny, ite_self, foldl_readControl (.inl rfl)]
    exact (matches_reported r.src cms).family_normalize_iff

/-- An address that is known is not replaced. -/
theorem workerAddress_of_specified (standalone : Bool) (sockname : Option SockAddr) {src myaddr : SockAddr}
    (hsrc : src.unspecified = false) (hmyaddr : myaddr.unspecified = false) :
    workerAddress standalone sockname src myaddr = myaddr := by
  unfold workerAddress
  split
  · rfl
  · split
    · rw [if_neg (by simpa [SockAddr.unspecified] using hmyaddr)]
    · rw [if_neg (by simpa [SockAddr.unspecified] using hsrc)]
    · rfl

/-- The socket of a worker. It can be connected to the sender if and only if the two addresses are
both of IPv4 in the form of IPv6, or neither. The address that the request was sent to is the one it
is answered from, if it is one of the server's. If that is not known, it is the address that is
listened at in the case of IPv4, but any address in the case of IPv6. -/
theorem worker_socket (standalone : Bool) (bindName : SockAddr → Option SockAddr) (sockname : Option SockAddr)
    (r : Received) (src myaddr worker : SockAddr) (hrecv : myrecvfrom bindName r = (src, myaddr))
    (hworker : workerAddress standalone sockname src myaddr = worker) :
    (worker.family = src.family ↔
      ∀ cms, r.control = some cms → ((reported r.src cms).getD r.src.any).mapped = r.src.mapped) ∧
    (∀ cms dst, r.control = some cms → reported r.src cms = some dst →
      addressIsLocal bindName (normalizeIp6Compat dst) = true → (normalizeIp6Compat dst).unspecified = false →
      src.unspecified = false → worker = normalizeIp6Compat dst) ∧
    (standalone = true → src.family = .inet → myaddr = .inet 0 0 →
      ∀ addr port, sockname = some (.inet addr port) → worker = .inet addr 0) ∧
    (src.family = .inet6 → src.unspecified = false → myaddr = .inet6 0 0 → worker = .inet6 0 0) := by
  subst hworker
  refine ⟨?_, fun cms dst hcontrol hdst hlocal hknown hsrc => ?_, fun hstandalone hfamily hany addr port hname => ?_,
    fun hfamily hsrc hany => ?_⟩
  · rw [family_workerAddress]
    exact family_myrecvfrom_iff hrecv
  · rw [myrecvfrom, hcontrol] at hrecv
    obtain ⟨rfl, rfl⟩ := Prod.mk.inj hrecv
    rw [foldl_readControl (.inl rfl), hdst, Option.getD_some, if_pos hlocal]
    exact workerAddress_of_specified _ _ hsrc hknown
  · subst hany hname hstandalone
    cases src with
    | inet => rfl
    | _ => cases hfamily
  · subst hany
    unfold workerAddress
    split
    · rfl
    · split
      · cases hfamily
      · next heq =>
        rw [if_neg (by simpa [SockAddr.unspecified] using hsrc)]
        exact heq.symm
      · rfl

/-- A request of IPv4 to a socket of IPv6. -/
theorem worker_socket_mapped : ∃ src myaddr,
    myrecvfrom some ⟨.inet6 0xffffc0a80002 1024, some [.other, .dst6 0xffffc0a80001]⟩ = (src, myaddr) ∧
    src = .inet 0xc0a80002 1024 ∧ workerAddress true none src myaddr = .inet 0xc0a80001 0 := by
  have hrecv : myrecvfrom some ⟨.inet6 0xffffc0a80002 1024, some [.other, .dst6 0xffffc0a80001]⟩ =
      (.inet 0xc0a80002 1024, .inet 0xc0a80001 0) := by decide
  refine ⟨_, _, hrecv, rfl, ?_⟩
  exact (worker_socket true some none _ _ _ _ hrecv rfl).2.1 _ (.inet6 0xffffc0a80001 0) rfl (by decide) (by decide)
    (by decide) (by decide)

end TftpHpa
