import ListServer.ChainServer
import ListServer.Framing
import ListServer.Lib.Decimal

namespace ListServer.ServerAddress

open Lib.CTypes Lib.Decimal ChainServer Framing

def colon : CString := ⟨[58], by simp⟩

/-- `regdata` of `zoo_init_server`, if it fits. -/
def regdata (hostbuf : CString) (port : Int) : Option CString :=
  let data := hostbuf.append (colon.append (decimal port))
  if data.bytes.length ≥ 512 then none else some data

/-- The first line of what `update_remote_list` of the client has read. -/
def clientAddress (data : CString) : CString :=
  ⟨(data.bytes.take zDataLen).takeWhile (fun b => decide (b ≠ 13 ∧ b ≠ 10)), fun b hb =>
    data.nonzero b (List.mem_of_mem_take ((List.takeWhile_prefix _).subset hb))⟩

structure RList where
  serverAddress : CString
  serverPort : Int
deriving DecidableEq

def beforeColon (s : CString) : CString := s.takeWhile fun b => decide (b ≠ 58)

def afterColon (s : CString) : CString := (s.dropWhile fun b => decide (b ≠ 58)).tail

/-- `rlist_connect` up to the call of `network_connect`. -/
def rlistConnect (addressPort : CString) : Option RList :=
  if 58 ∈ addressPort.bytes then
    let port := atoi (afterColon addressPort)
    if port ≤ 0 then none else some ⟨beforeColon addressPort, port⟩
  else none

def toShort (x : Int) : Int := x.bmod (2 ^ 16)

def toUint16 (x : Int) : Nat := (x % 2 ^ 16).toNat

/-- `sin_port` of `network_server_init`, whose argument is a `short`. -/
def serverSinPort (port : Int) : List UInt8 := htons (toUint16 port)

def connectSinPort (rlist : RList) : List UInt8 := htons (toUint16 rlist.serverPort)

/-- The ports that `bind` hands out for the port 0. -/
abbrev FreePort := {port : Nat // 0 < port ∧ port < 2 ^ 16}

/-- The port that the socket of `network_server_init` gets, where the system has
`free` to hand out. -/
def boundPort (free : FreePort) (port : Int) : List UInt8 :=
  if toUint16 port = 0 then htons free else serverSinPort port

theorem toUint16_toShort (p : Int) : toUint16 (toShort p) = toUint16 p := by
  simp only [toUint16, toShort, Int.bmod]
  omega

theorem toUint16_eq_zero (p : Int) : toUint16 p = 0 ↔ 65536 ∣ p := by
  rw [toUint16]
  omega

/-- Connecting to the port that has been asked for reaches the socket exactly if
that port is not 0. -/
theorem connectSinPort_eq_boundPort (free : FreePort) (rl : RList) :
    connectSinPort rl = boundPort free (toShort rl.serverPort) ↔ ¬ 65536 ∣ rl.serverPort := by
  rw [← toUint16_eq_zero, connectSinPort, boundPort, serverSinPort, toUint16_toShort]
  by_cases hzero : toUint16 rl.serverPort = 0
  · rw [if_pos hzero, hzero]
    refine iff_of_false (fun hsame => ?_) (fun hne => hne rfl)
    have hfree := congrArg ntohs hsame
    rw [ntohs_htons (by decide), ntohs_htons (by have := free.2.2; omega)] at hfree
    exact absurd hfree free.2.1.ne
  · rw [if_neg hzero]
    exact iff_of_true rfl hzero

section Registered

variable {host : CString} {p : Int}

theorem regdata_eq (hlen : host.bytes.length ≤ 255) (hp : 1 ≤ p ∧ p ≤ intMax) :
    regdata host p = some (host.append (colon.append (decimal p))) := by
  have hnum : (decimal p).bytes.length ≤ 11 := by
    refine length_formatD (k := 10) (by omega) ?_
    have hmax := hp.2
    simp only [intMax] at hmax
    omega
  have hshort : (host.append (colon.append (decimal p))).bytes.length < 512 := by
    simp only [CString.append, colon, List.length_append, List.length_singleton]
    omega
  rw [regdata, if_neg (by omega)]

theorem trim_eq {bs : List UInt8} {n : Nat} (hlen : bs.length ≤ n)
    (hline : ∀ b ∈ bs, b ≠ 13 ∧ b ≠ 10) :
    (bs.take n).takeWhile (fun b => decide (b ≠ 13 ∧ b ≠ 10)) = bs := by
  rw [List.take_of_length_le hlen]
  exact List.takeWhile_eq_self_iff.mpr fun b hb => decide_eq_true (hline b hb)

theorem rlistConnect_eq (hhost : 58 ∉ host.bytes) (hp : 1 ≤ p ∧ p ≤ intMax) :
    rlistConnect (host.append (colon.append (decimal p))) = some ⟨host, p⟩ := by
  have hall : ∀ b ∈ host.bytes, decide (b ≠ 58) = true := by
    intro b hb
    refine decide_eq_true ?_
    rintro rfl
    exact hhost hb
  have hbefore : beforeColon (host.append (colon.append (decimal p))) = host := by
    apply CString.ext
    simp only [beforeColon, CString.takeWhile, CString.append, colon]
    rw [List.takeWhile_append_of_pos hall]
    exact List.append_nil _
  have hafter : afterColon (host.append (colon.append (decimal p))) = decimal p := by
    apply CString.ext
    simp only [afterColon, CString.dropWhile, CString.tail, CString.append, colon]
    rw [List.dropWhile_append_of_pos hall]
    rfl
  have hport : atoi (decimal p) = p := atoi_decimal (by simp only [intMin]; omega) hp.2
  have hcolon : 58 ∈ (host.append (colon.append (decimal p))).bytes := by
    simp [CString.append, colon]
  rw [rlistConnect, if_pos hcolon, hafter, hport, hbefore]
  exact if_neg (by omega)

end Registered

/-- What `zoo_init_server` registers leads the servers and the clients to the same
host and port, and to the port that the server has got. -/
def LeadsToBound (free : FreePort) (host : CString) (p : Int) : Prop :=
  ∃ data, regdata host p = some data ∧
    ∀ text, text = address data ∨ text = clientAddress data →
      ∃ rl, rlistConnect text = some rl ∧ rl.serverAddress = host ∧ rl.serverPort = p ∧
        connectSinPort rl = boundPort free (toShort p)

/-- Updates find the registered text as it is. -/
theorem registered_text {host : CString} {p : Int} (hlen : host.bytes.length ≤ 255)
    (hhost : ∀ b ∈ host.bytes, b ≠ 58 ∧ b ≠ 13 ∧ b ≠ 10) (hp : 1 ≤ p ∧ p ≤ intMax) :
    ∃ data, regdata host p = some data ∧ address data = data ∧ clientAddress data = data ∧
      rlistConnect data = some ⟨host, p⟩ := by
  have hdata := regdata_eq hlen hp
  have hline : ∀ b ∈ (host.append (colon.append (decimal p))).bytes, b ≠ 13 ∧ b ≠ 10 := by
    intro b hb
    simp only [CString.append, colon, List.mem_append, List.mem_singleton] at hb
    obtain hb | rfl | hb := hb
    · exact (hhost b hb).2
    · decide
    · obtain rfl | hdigit := mem_formatD hb
      · decide
      · constructor <;> rintro rfl <;> exact absurd hdigit (by decide)
  have hfit : (host.append (colon.append (decimal p))).bytes.length < 512 := by
    rw [regdata] at hdata
    by_contra hlong
    rw [if_pos (by omega)] at hdata
    cases hdata
  exact ⟨_, hdata, CString.ext (trim_eq (by simp only [zDataLen]; omega) hline),
    CString.ext (trim_eq (by simp only [zDataLen]; omega) hline),
    rlistConnect_eq (fun hb => (hhost 58 hb).1 rfl) hp⟩

theorem leads_to_bound_iff (free : FreePort) (host : CString) (p : Int)
    (hlen : 1 ≤ host.bytes.length ∧ host.bytes.length ≤ 255)
    (hhost : ∀ b ∈ host.bytes, b ≠ 58 ∧ b ≠ 13 ∧ b ≠ 10) (hp : 1 ≤ p ∧ p ≤ intMax) :
    LeadsToBound free host p ↔ ¬ 65536 ∣ p := by
  obtain ⟨data, hdata, haddress, hclient, hconnect⟩ := registered_text hlen.2 hhost hp
  constructor
  · rintro ⟨data', hdata', htext⟩
    obtain rfl := Option.some.inj (hdata.symm.trans hdata')
    obtain ⟨rl, -, -, hport, hsame⟩ := htext _ (.inl rfl)
    rw [← hport] at hsame ⊢
    exact (connectSinPort_eq_boundPort free rl).mp hsame
  · intro hne
    refine ⟨data, hdata, fun text htext => ⟨⟨host, p⟩, ?_, rfl, rfl, ?_⟩⟩
    · have hsame : text = data := htext.elim (·.trans haddress) (·.trans hclient)
      rw [hsame]
      exact hconnect
    · exact (connectSinPort_eq_boundPort free ⟨host, p⟩).mpr hne

/-- The port 65536 is 0 for `bind`, which hands out 49152 here. -/
theorem not_leads_to_65536 : (1 : Int) ≤ 65536 ∧ (65536 : Int) ≤ intMax ∧
    serverSinPort (toShort 65536) = [0, 0] ∧
      ¬ LeadsToBound ⟨49152, by decide⟩ ⟨[104], by simp⟩ 65536 := by
  refine ⟨by decide, by decide, by decide, fun ⟨data, hdata, htext⟩ => ?_⟩
  obtain ⟨rl, -, -, hport, hsame⟩ := htext _ (.inl rfl)
  rw [connectSinPort, hport] at hsame
  exact absurd hsame (by decide)

theorem leads_to_bound_70000 : LeadsToBound ⟨49152, by decide⟩ ⟨[104], by simp⟩ 70000 ∧
    boundPort ⟨49152, by decide⟩ (toShort 70000) = [17, 112] :=
  ⟨(leads_to_bound_iff _ _ 70000 (by simp) (by simp) (by decide)).mpr (by decide), by decide⟩

end ListServer.ServerAddress
