import NetDebugger.Proxy.Dispatch
import NetDebugger.Tls.RoundTrip

/-! `ParseSni` of a ClientHello that is cut anywhere.  A cut leaves the name or no name: what is read
in front of the cut is read as in the whole record, and a read across the cut ends the search. -/

namespace NetDebugger.Proxy

open Lib Tls

/-! ### Hellos with a name -/

/-- The extension server_name, whose list begins with a host_name. -/
def serverName (host more : List UInt8) : Extension where
  type := 0
  data := beBytes 2 (3 + host.length + more.length) ++
    (0 :: (beBytes 2 host.length ++ (host ++ more)))

/-- A ClientHello in one record. -/
def helloBytes (ver : UInt16) (ch : ClientHello) : List UInt8 :=
  (Record.mk 22 ver ch.message.whole).frame.whole

/-- The hello asks for `host` in its only server_name, which `post` follows. -/
structure Asks (ch : ClientHello) (host : List UInt8) (post : List Extension) : Prop where
  extensions : ∃ pre more, ch.extensions = some (pre ++ serverName host more :: post) ∧
    ∀ e ∈ pre ++ post, e.type ≠ 0

/-- The hello has no server_name. -/
def Nameless (ch : ClientHello) : Prop := ∀ es ∈ ch.extensions, ∀ e ∈ es, e.type ≠ 0

/-- Where the server_name ends. -/
def serverNameEnd (ver : UInt16) (ch : ClientHello) (post : List Extension) : Nat :=
  (helloBytes ver ch).length - (post.flatMap Extension.bytes).length

/-! ### Reads in front of a cut -/

theorem be16_mid (pre : List UInt8) {v : Nat} (hv : v < 2 ^ 16) (s : List UInt8) :
    be16 (pre ++ (beBytes 2 v ++ s)) pre.length = some v := by
  have hhigh : (UInt8.ofNat (v / 256)).toNat = v / 256 := by
    rw [UInt8.toNat_ofNat', Nat.mod_eq_of_lt (by omega)]
  unfold be16
  rw [getElem?_mid_zero, getElem?_mid, beBytes_two]
  show some ((UInt8.ofNat (v / 256)).toNat * 256 + (UInt8.ofNat v).toNat) = some v
  rw [hhigh, UInt8.toNat_ofNat', Nat.div_add_mod']

/-- The loop over the first part of the extensions finds no name, or the name of the whole. -/
theorem sniLoop_append {d : List UInt8} (t : List UInt8) {endD endW fuel fuel' p : Nat}
    (hd : endD ≤ d.length) (hw : endD ≤ endW) (hpos : 0 < fuel) (hpos' : 0 < fuel')
    (hfuel : endD < fuel + p) (hfuel' : endW < fuel' + p) :
    sniLoop d endD fuel p = some [] ∨ sniLoop d endD fuel p = sniLoop (d ++ t) endW fuel' p := by
  induction fuel generalizing fuel' p with
  | zero => omega
  | succ fuel ih =>
    obtain ⟨fuel', rfl⟩ : ∃ f, fuel' = f + 1 := ⟨fuel' - 1, by omega⟩
    by_cases hroom : p + 4 ≤ endD
    · obtain ⟨et, het⟩ := be16_eq (show p + 2 ≤ d.length by omega)
      obtain ⟨el, hel⟩ := be16_eq (show p + 2 + 2 ≤ d.length by omega)
      unfold sniLoop
      rw [if_pos hroom, if_pos (by omega), be16_append (by omega), be16_append (by omega), het, hel]
      simp only [Option.bind_eq_bind, Option.bind_some]
      by_cases hname : et = 0
      · rw [if_pos hname, if_pos hname]
        by_cases hlist : p + 4 + 5 ≤ endD
        · obtain ⟨nameLen, hlen⟩ := be16_eq (show p + 4 + 3 + 2 ≤ d.length by omega)
          rw [if_pos hlist, if_pos (by omega), be16_append (by omega), hlen, Option.bind_some]
          by_cases hfit : p + 4 + 5 + nameLen ≤ endD
          · right
            rw [if_pos hfit, Option.bind_some, if_pos (by omega), slice_append (by omega)]
          · left
            exact if_neg hfit
        · left
          exact if_neg hlist
      · rw [if_neg hname, if_neg hname]
        exact ih (by omega) (by omega) (by omega) (by omega)
    · left
      unfold sniLoop
      exact if_neg hroom

/-- A cut leaves no name or the name of the whole. -/
theorem parseSni_append (d t : List UInt8) :
    parseSni d = some [] ∨ parseSni d = parseSni (d ++ t) := by
  have hlen : d.length ≤ (d ++ t).length := by
    rw [List.length_append]
    omega
  rcases parseSni_walk d t with hnone | ⟨start, stop, hstart, hloop, hloop'⟩
  · exact .inl hnone
  · rw [hloop, hloop']
    apply sniLoop_append
    all_goals omega

/-! ### The fields in front of the extensions -/

/-- The search starts behind the five fields that come first. -/
theorem parseSni_fields {fixed sid suites methods : List UInt8} (rest : List UInt8)
    (hfixed : fixed.length = 43) (htype : fixed[0]? = some 0x16) (hhello : fixed[5]? = some 0x01)
    (hsid : sid.length < 2 ^ 8) (hsuites : suites.length < 2 ^ 16)
    (hmethods : methods.length < 2 ^ 8) {head : List UInt8}
    (hhead : head = fixed ++ (UInt8.ofNat sid.length :: sid) ++ (beBytes 2 suites.length ++ suites)
      ++ (UInt8.ofNat methods.length :: methods)) :
    parseSni (head ++ rest) =
      if head.length + 2 > (head ++ rest).length then some []
      else (be16 (head ++ rest) head.length).bind fun len =>
        sniLoop (head ++ rest) (min (head.length + 2 + len) (head ++ rest).length)
          ((head ++ rest).length + 1) (head.length + 2) := by
  have hlen : head.length = 43 + 1 + sid.length + 2 + suites.length + 1 + methods.length := by
    rw [hhead]
    simp only [List.length_append, List.length_cons, beBytes_length, hfixed]
    omega
  have hbyte {m : Nat} (hm : m < 2 ^ 8) : (UInt8.ofNat m).toNat = m := by
    rw [UInt8.toNat_ofNat', Nat.mod_eq_of_lt hm]
  have hn : (head ++ rest).length = head.length + rest.length := List.length_append
  have hread (j : Nat) (hj : j < 43) : (head ++ rest)[j]? = fixed[j]? := by
    rw [hhead]
    simp only [List.append_assoc]
    rw [List.getElem?_append_left (by omega)]
  have hsidLen : (head ++ rest)[43]? = some (UInt8.ofNat sid.length) := by
    rw [hhead]
    simp only [List.append_assoc]
    rw [← hfixed, getElem?_mid_zero]
    rfl
  have hsuitesLen : be16 (head ++ rest) (43 + 1 + sid.length) = some suites.length := by
    have hmid := be16_mid (fixed ++ (UInt8.ofNat sid.length :: sid)) hsuites
      (suites ++ (UInt8.ofNat methods.length :: methods ++ rest))
    rw [List.length_append, hfixed, List.length_cons] at hmid
    rw [hhead, ← hmid]
    simp only [List.append_assoc, Nat.add_assoc, Nat.add_comm 1]
  have hmethodsLen : (head ++ rest)[43 + 1 + sid.length + 2 + suites.length]? =
      some (UInt8.ofNat methods.length) := by
    have hmid := getElem?_mid_zero (fixed ++ (UInt8.ofNat sid.length :: sid) ++
      (beBytes 2 suites.length ++ suites)) (UInt8.ofNat methods.length :: methods ++ rest)
    rw [← List.append_assoc, ← hhead, List.length_append, List.length_append, List.length_append,
      hfixed, List.length_cons, beBytes_length] at hmid
    rw [← show 43 + (sid.length + 1) + (2 + suites.length) =
      43 + 1 + sid.length + 2 + suites.length by omega, hmid]
    rfl
  unfold parseSni
  rw [if_neg (by omega)]
  dsimp only
  rw [hread 0 (by omega), hread 5 (by omega), htype, hhello]
  simp only [Option.bind_eq_bind, Option.bind_some, ne_eq, not_true_eq_false, if_false]
  rw [if_neg (by omega), show 5 + 4 + 2 + 32 = 43 from rfl, hsidLen]
  simp only [Option.bind_some, hbyte hsid]
  rw [if_neg (by omega), hsuitesLen]
  simp only [Option.bind_some]
  rw [if_neg (by omega), hmethodsLen]
  simp only [Option.bind_some, hbyte hmethods, ← hlen]

/-- The record in front of the extension block. -/
def helloHead (ver : UInt16) (ch : ClientHello) : List UInt8 :=
  (Record.mk 22 ver ch.message.whole).frame.header ++
    (ch.message.header ++ (beBytes 2 ch.version.toNat ++ ch.random)) ++
    (UInt8.ofNat ch.sessionId.length :: ch.sessionId) ++
    (beBytes 2 (ch.cipherSuites.flatMap (beBytes 2 ·.toNat)).length ++
      ch.cipherSuites.flatMap (beBytes 2 ·.toNat)) ++
    (UInt8.ofNat ch.compression.length :: ch.compression)

theorem cipherSuites_bytes (suites : List UInt16) :
    (suites.flatMap (beBytes 2 ·.toNat)).length = 2 * suites.length := by
  induction suites with
  | nil => rfl
  | cons suite suites ih =>
    rw [List.flatMap_cons, List.length_append, beBytes_length, ih, List.length_cons]
    omega

theorem helloBytes_eq (ver : UInt16) (ch : ClientHello) :
    helloBytes ver ch = helloHead ver ch ++ extensionBytes ch.extensions := by
  simp [helloBytes, helloHead, Frame.whole, Record.frame, ClientHello.message, messageFrame,
    ClientHello.body, Nat.mul_comm 2]

theorem parseSni_head (ver : UInt16) (ch : ClientHello) (rest : List UInt8) :
    parseSni (helloHead ver ch ++ rest) =
      if (helloHead ver ch).length + 2 > (helloHead ver ch ++ rest).length then some []
      else (be16 (helloHead ver ch ++ rest) (helloHead ver ch).length).bind fun len =>
        sniLoop (helloHead ver ch ++ rest)
          (min ((helloHead ver ch).length + 2 + len) (helloHead ver ch ++ rest).length)
          ((helloHead ver ch ++ rest).length + 1) ((helloHead ver ch).length + 2) := by
  have hsid := ch.sessionId_length
  have hsuites := ch.cipherSuites_length.2
  apply parseSni_fields rest _ _ _ _ _ ch.compression_length.2 rfl
  · simp [Record.frame, ClientHello.message, messageFrame, ch.random_length]
  · rfl
  · rfl
  · omega
  · rw [cipherSuites_bytes]
    omega

/-! ### The extensions -/

theorem Extension.bytes_length (e : Extension) : e.bytes.length = 4 + e.data.length := by
  simp [Extension.bytes]
  omega

theorem extensions_length_le (es : List Extension) :
    es.length ≤ (es.flatMap Extension.bytes).length := by
  induction es with
  | nil => exact Nat.le_refl 0
  | cons e es ih =>
    rw [List.flatMap_cons, List.length_append, Extension.bytes_length, List.length_cons]
    omega

/-- The type and the length in front of an extension. -/
theorem extension_reads (head : List UInt8) {e : Extension} (he : e.data.length < 2 ^ 16)
    (rest : List UInt8) : be16 (head ++ (e.bytes ++ rest)) head.length = some e.type.toNat ∧
      be16 (head ++ (e.bytes ++ rest)) (head.length + 2) = some e.data.length := by
  constructor
  · have hmid := be16_mid head e.type.toNat_lt (beBytes 2 e.data.length ++ (e.data ++ rest))
    rw [← hmid]
    simp [Extension.bytes]
  · have hmid := be16_mid (head ++ beBytes 2 e.type.toNat) he (e.data ++ rest)
    rw [List.length_append, beBytes_length] at hmid
    rw [← hmid]
    simp [Extension.bytes]

/-- Extensions of other types are skipped. -/
theorem sniLoop_skip {pre : List Extension} {head rest : List UInt8} {extEnd : Nat} (fuel : Nat)
    (hother : ∀ e ∈ pre, e.type ≠ 0) (hdata : ∀ e ∈ pre, e.data.length < 2 ^ 16)
    (hend : (head ++ pre.flatMap Extension.bytes).length ≤ extEnd) :
    sniLoop (head ++ (pre.flatMap Extension.bytes ++ rest)) extEnd (pre.length + fuel) head.length =
      sniLoop (head ++ (pre.flatMap Extension.bytes ++ rest)) extEnd fuel
        (head ++ pre.flatMap Extension.bytes).length := by
  induction pre generalizing head with
  | nil => simp
  | cons e pre ih =>
    have hne : e.type.toNat ≠ 0 := fun h =>
      hother e (List.mem_cons_self ..) (UInt16.toNat_inj.mp h)
    obtain ⟨htype, hlen⟩ := extension_reads head (hdata e (List.mem_cons_self ..))
      (pre.flatMap Extension.bytes ++ rest)
    have hstep := ih (fun e he => hother e (List.mem_cons_of_mem _ he))
      (fun e he => hdata e (List.mem_cons_of_mem _ he)) (show
        ((head ++ e.bytes) ++ pre.flatMap Extension.bytes).length ≤ extEnd by simpa using hend)
    simp only [List.flatMap_cons, List.append_assoc, List.length_append, List.length_cons,
      Extension.bytes_length] at hstep hend ⊢
    rw [← hstep, show pre.length + 1 + fuel = pre.length + fuel + 1 by omega]
    conv_lhs => unfold sniLoop
    rw [if_pos (by omega), htype, hlen]
    simp only [Option.bind_eq_bind, Option.bind_some, if_neg hne, Nat.add_assoc]

theorem sniLoop_serverName {host more head : List UInt8} {extEnd : Nat} (fuel : Nat)
    (rest : List UInt8) (hdata : (serverName host more).data.length < 2 ^ 16)
    (hend : (head ++ (serverName host more).bytes).length ≤ extEnd) :
    sniLoop (head ++ ((serverName host more).bytes ++ rest)) extEnd (fuel + 1) head.length =
      some host := by
  obtain ⟨htype, hlen⟩ := extension_reads head hdata rest
  have hdataLen : (serverName host more).data.length = 5 + host.length + more.length := by
    simp [serverName]
    omega
  rw [List.length_append, Extension.bytes_length] at hend
  have hbytes : head ++ ((serverName host more).bytes ++ rest) =
      (head ++ (beBytes 2 0 ++ beBytes 2 (serverName host more).data.length ++
        (beBytes 2 (3 + host.length + more.length) ++ [0]))) ++
      (beBytes 2 host.length ++ (host ++ (more ++ rest))) := by
    simp [serverName, Extension.bytes]
  have hname : be16 (head ++ ((serverName host more).bytes ++ rest)) (head.length + 4 + 3) =
      some host.length := by
    have hmid := be16_mid (head ++ (beBytes 2 0 ++ beBytes 2 (serverName host more).data.length ++
      (beBytes 2 (3 + host.length + more.length) ++ [0]))) (show host.length < 2 ^ 16 by omega)
      (host ++ (more ++ rest))
    rw [hbytes, ← hmid]
    simp
  have hhost : slice (head ++ ((serverName host more).bytes ++ rest)) (head.length + 4 + 5)
      host.length = some host := by
    have hmid := slice_mid (head ++ (beBytes 2 0 ++ beBytes 2 (serverName host more).data.length ++
      (beBytes 2 (3 + host.length + more.length) ++ [0])) ++ beBytes 2 host.length) host
      (more ++ rest)
    rw [hbytes, ← hmid]
    simp
  unfold sniLoop
  rw [if_pos (by omega), htype, hlen]
  simp only [Option.bind_eq_bind, Option.bind_some]
  rw [if_pos (by rfl), if_pos (by omega), hname, Option.bind_some, if_pos (by omega), hhost]

/-! ### The name of a hello -/

/-- Behind the length of the block, its extensions are searched as far as they are there. -/
theorem parseSni_block (ver : UInt16) (ch : ClientHello) {len : Nat} (hlen : len < 2 ^ 16)
    {front : List UInt8} (hfront : front = helloHead ver ch ++ beBytes 2 len) (t : List UInt8) :
    parseSni (front ++ t) = sniLoop (front ++ t) (min (front.length + len) (front ++ t).length)
      ((front ++ t).length + 1) front.length := by
  have hfrontLen : front.length = (helloHead ver ch).length + 2 := by
    rw [hfront, List.length_append, beBytes_length]
  have hbytes : front ++ t = helloHead ver ch ++ (beBytes 2 len ++ t) := by
    rw [hfront, List.append_assoc]
  rw [hbytes, parseSni_head, ← hbytes, ← hfrontLen, if_neg (by simp), hbytes, be16_mid _ hlen,
    Option.bind_some]

/-- A hello without a server_name names nothing. -/
theorem parseSni_nameless (ver : UInt16) {ch : ClientHello} (hno : Nameless ch) :
    parseSni (helloBytes ver ch) = some [] := by
  rw [helloBytes_eq]
  cases hes : ch.extensions with
  | none => rw [parseSni_head, if_pos (by simp [extensionBytes])]
  | some es =>
    obtain ⟨hblock, hdata⟩ := ch.extensions_length es (by rw [hes]; rfl)
    have hcount := extensions_length_le es
    let front := helloHead ver ch ++ beBytes 2 (es.flatMap Extension.bytes).length
    have hlen : (front ++ es.flatMap Extension.bytes).length =
        front.length + (es.flatMap Extension.bytes).length := List.length_append
    obtain ⟨fuel, hfuel⟩ : ∃ fuel,
        (front ++ es.flatMap Extension.bytes).length + 1 = es.length + (fuel + 1) :=
      ⟨(front ++ es.flatMap Extension.bytes).length - es.length, by omega⟩
    have hskip := @sniLoop_skip es front [] (front ++ es.flatMap Extension.bytes).length (fuel + 1)
      (hno es hes) hdata (Nat.le_refl _)
    rw [List.append_nil] at hskip
    rw [extensionBytes, ← List.append_assoc, parseSni_block ver ch hblock rfl, ← hlen, Nat.min_self,
      hfuel, hskip]
    exact if_neg (by omega)

/-- A hello that asks for a host names it as soon as the server_name is there. -/
theorem parseSni_covered (ver : UInt16) {ch : ClientHello} {host : List UInt8}
    {post : List Extension} (hasks : Asks ch host post) {k : Nat}
    (hk : serverNameEnd ver ch post ≤ k) : parseSni ((helloBytes ver ch).take k) = some host := by
  obtain ⟨pre, more, hes, hother⟩ := hasks.extensions
  obtain ⟨hblock, hdata⟩ := ch.extensions_length _ (by rw [hes]; rfl)
  have hblockLen : ((pre ++ serverName host more :: post).flatMap Extension.bytes).length =
      (pre.flatMap Extension.bytes).length + (serverName host more).bytes.length +
        (post.flatMap Extension.bytes).length := by
    simp only [List.flatMap_append, List.flatMap_cons, List.length_append]
    omega
  obtain ⟨front, hfront⟩ : ∃ front, front = helloHead ver ch ++
      beBytes 2 ((pre ++ serverName host more :: post).flatMap Extension.bytes).length := ⟨_, rfl⟩
  obtain ⟨named, hnamed⟩ : ∃ named, named =
      front ++ (pre.flatMap Extension.bytes ++ (serverName host more).bytes) := ⟨_, rfl⟩
  have hnamedLen : named.length =
      front.length + (pre.flatMap Extension.bytes).length + (serverName host more).bytes.length := by
    simp only [hnamed, List.length_append]
    omega
  have hbytes : helloBytes ver ch = named ++ post.flatMap Extension.bytes := by
    rw [helloBytes_eq, hes]
    simp [hnamed, hfront, extensionBytes]
  have hend : serverNameEnd ver ch post = named.length := by
    rw [serverNameEnd, hbytes, List.length_append, Nat.add_sub_cancel]
  -- a peek that reaches the end of the server_name is the record up to there and more
  obtain ⟨rest, hcut⟩ : ∃ rest, (helloBytes ver ch).take k =
      front ++ (pre.flatMap Extension.bytes ++ ((serverName host more).bytes ++ rest)) := by
    refine ⟨(post.flatMap Extension.bytes).take (k - named.length), ?_⟩
    rw [hbytes, List.take_append, List.take_of_length_le (by omega), hnamed]
    simp only [List.append_assoc]
  have hcutLen : (front ++ (pre.flatMap Extension.bytes ++
      ((serverName host more).bytes ++ rest))).length = named.length + rest.length := by
    simp only [hnamedLen, List.length_append]
    omega
  have hcount := extensions_length_le pre
  rw [hcut, parseSni_block ver ch hblock hfront, hblockLen, hcutLen]
  generalize hextEnd : @min Nat _ _ _ = extEnd
  obtain ⟨fuel, hfuel⟩ : ∃ fuel, named.length + rest.length + 1 = pre.length + (fuel + 1) :=
    ⟨named.length + rest.length - pre.length, by omega⟩
  have hpre : (front ++ pre.flatMap Extension.bytes).length ≤ extEnd := by
    rw [List.length_append]
    omega
  rw [hfuel, sniLoop_skip (fuel + 1) (fun e he => hother e (List.mem_append_left _ he))
    (fun e he => hdata e (List.mem_append_left _ he)) hpre, ← List.append_assoc]
  apply sniLoop_serverName fuel rest (hdata _ (by simp))
  rw [List.append_assoc, ← hnamed]
  omega

/-- Part of a hello names its host or nothing. -/
theorem parseSni_cut (ver : UInt16) {ch : ClientHello} {host : List UInt8} {post : List Extension}
    (hasks : Asks ch host post) (k : Nat) : parseSni ((helloBytes ver ch).take k) = some [] ∨
      parseSni ((helloBytes ver ch).take k) = some host := by
  have hcut := parseSni_append ((helloBytes ver ch).take k) ((helloBytes ver ch).drop k)
  have hwhole := parseSni_covered ver hasks (Nat.sub_le ..)
  rw [List.take_length] at hwhole
  rw [List.take_append_drop, hwhole] at hcut
  exact hcut

/-- However much of a hello is peeked, the name found is the one it asks for or none. It is found as
soon as the whole server_name is there, and a hello without one has no name. -/
theorem parseSni_hello (ver : UInt16) (ch : ClientHello) (k : Nat) :
    (∀ host post, Asks ch host post →
      (parseSni ((helloBytes ver ch).take k) = some [] ∨
        parseSni ((helloBytes ver ch).take k) = some host) ∧
      (serverNameEnd ver ch post ≤ k → parseSni ((helloBytes ver ch).take k) = some host)) ∧
    (Nameless ch → parseSni ((helloBytes ver ch).take k) = some []) := by
  constructor
  · intro host post hasks
    exact ⟨parseSni_cut ver hasks k, parseSni_covered ver hasks⟩
  · intro hno
    have hcut := parseSni_append ((helloBytes ver ch).take k) ((helloBytes ver ch).drop k)
    rw [List.take_append_drop, parseSni_nameless ver hno, or_self] at hcut
    exact hcut

/-- A hello that asks for a host behind another extension. -/
def askingHello : ClientHello :=
  { someClient with
    sessionId := [1, 2, 3]
    extensions := some [⟨0x17, []⟩, serverName (text "a.io") [], ⟨0x23, [9]⟩]
    sessionId_length := by decide
    extensions_length := by decide }

theorem askingHello_asks : Asks askingHello (text "a.io") [⟨0x23, [9]⟩] :=
  ⟨[⟨0x17, []⟩], [], rfl, by decide⟩

theorem parseSni_hello_asking :
    parseSni ((helloBytes 0x0301 askingHello).take 72) = some (text "a.io") :=
  ((parseSni_hello 0x0301 askingHello 72).1 _ _ askingHello_asks).2 (by decide +kernel)

/-- One byte less is no name. -/
example : parseSni ((helloBytes 0x0301 askingHello).take 71) = some [] := by decide +kernel

/-! ### The certificate -/

/-- The certificate for a redirected client is minted for the name in its hello, or for the address
that it connected to. -/
theorem dispatch_certHost {p : Peer} {ver : UInt16} {ch : ClientHello} {host : List UInt8}
    {post : List Extension} (hsent : p.sent = helloBytes ver ch) (hasks : Asks ch host post)
    {addr certHost : List UInt8} {port : UInt16}
    (hdispatch : dispatch p = some (.transparent addr certHost port)) :
    certHost = host ∨ certHost = addr := by
  have hfirst : helloBytes ver ch = 0x16 :: (helloBytes ver ch).tail := rfl
  unfold dispatch at hdispatch
  rw [hsent, hfirst] at hdispatch
  simp only [if_true, ← hfirst, Option.bind_eq_bind] at hdispatch
  cases hquery : queryOriginalDest p.context with
  | none =>
    rcases parseSni_cut ver hasks (min 2048 (1 + p.arrived)) with hname | hname <;>
      simp [hname, hquery] at hdispatch
  | some rc =>
    rcases parseSni_cut ver hasks (min 2048 (1 + p.arrived)) with hname | hname <;>
      rw [hname, Option.bind_some, hquery] at hdispatch <;>
      obtain ⟨rfl, hcert, -⟩ := Dispatch.transparent.inj (Option.some.inj hdispatch)
    · exact .inr hcert.symm
    · by_cases hempty : host = []
      · rw [if_pos hempty] at hcert
        exact .inr hcert.symm
      · rw [if_neg hempty] at hcert
        exact .inl hcert.symm

end NetDebugger.Proxy
