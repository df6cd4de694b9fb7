import VideoOlympics.Base.Http
import VideoOlympics.Port.Render
import Mathlib.Data.List.TakeWhile

/-! The C publisher speaks HTTP itself: it takes the URL apart, prints the request into a buffer and sends
    it piece by piece. -/

namespace VO.Port.Lobby
open Relay

/-- `HOST_MAX`. -/
def hostMax : ℕ := 256
/-- `PATH_MAX_`. -/
def pathMax : ℕ := 256
/-- `REQ_MAX`. -/
def reqMax : ℕ := jsonMax + 1024

def slash : Byte := 0x2F

/-! ### The URL -/

/-- Where the POSTs go. -/
structure Endpoint where
  host : Field hostMax
  port : ℤ
  low : 1 ≤ port
  high : port ≤ 65535
  path : CString
  short : path.bytes.length < pathMax
  absolute : path.bytes.head? = some slash

/-- What `parse_url` warns of. -/
inductive BadUrl where
  | https
  | scheme
  | noHost
  | port
  | hostTooLong (n max : ℕ)
  | hostNonAscii
  | path
  deriving DecidableEq, Repr

/-- `copy_ascii` is told that it looks at "--lobby-url host". -/
def BadUrl.ofHost : Unfit → BadUrl
  | .tooLong _ n max => .hostTooLong n max
  | .nonAscii _ => .hostNonAscii

/-- `atoi`, of digits: the C library stops at the largest long, and what is kept of it is an int. -/
def atoi (ds : List Byte) : ℤ := (BitVec.ofNat 32 (min (Http.value ds) (2 ^ 63 - 1))).toInt

/-- The host, and the port that is 80 if none is given: the last colon counts if there are digits behind
    it, and nothing else. -/
def splitPort (hostport : List Byte) : List Byte × ℤ :=
  let ds := (hostport.reverse.takeWhile (· ≠ Http.colon)).reverse
  match hostport.reverse.dropWhile (· ≠ Http.colon) with
  | [] => (hostport, 80)
  | _ :: host =>
    if ds ≠ [] ∧ ds.all Http.isDigit then (host.reverse, atoi ds) else (hostport, 80)

/-- Some of a string. -/
def CString.part (s : CString) (bs : List Byte) (h : bs ⊆ s.bytes) : CString :=
  ⟨bs, fun hzero => s.nonzero (h hzero)⟩

theorem splitPort_subset (hostport : List Byte) : (splitPort hostport).1 ⊆ hostport := by
  rw [splitPort]
  split
  · exact List.Subset.refl _
  · next c host hhost =>
    split
    · intro b hb
      have hin : b ∈ hostport.reverse.dropWhile (· ≠ Http.colon) := by
        rw [hhost]
        exact List.mem_cons_of_mem _ (List.mem_reverse.mp hb)
      exact List.mem_reverse.mp ((List.dropWhile_sublist _).subset hin)
    · exact List.Subset.refl _

/-- `p`, from the URL's seventh byte on: as far as the path, and the path. -/
def hostportOf (url : CString) : List Byte := (url.bytes.drop 7).takeWhile (· ≠ slash)

def pathOf (url : CString) : List Byte := (url.bytes.drop 7).dropWhile (· ≠ slash)

theorem hostportOf_subset (url : CString) : hostportOf url ⊆ url.bytes := fun _ hb =>
  (List.drop_sublist _ _).subset ((List.takeWhile_sublist _).subset hb)

theorem pathOf_subset (url : CString) : pathOf url ⊆ url.bytes := fun _ hb =>
  (List.drop_sublist _ _).subset ((List.dropWhile_sublist _).subset hb)

/-- `want`: a URL with no path means the root. -/
def want (url : CString) : CString :=
  if pathOf url = [] then ⟨[slash], by decide⟩ else url.part (pathOf url) (pathOf_subset url)

theorem want_head (url : CString) : (want url).bytes.head? = some slash := by
  rw [want]
  split
  · rfl
  · next hne =>
    have hhead := List.head_dropWhile_not (· ≠ slash) hne
    rw [decide_eq_false_iff_not, not_not] at hhead
    exact (List.head?_eq_some_head hne).trans (congrArg some hhead)

/-- `parse_url`. -/
def parseUrl (url : CString) : Except BadUrl Endpoint :=
  if literal "https://" <+: url.bytes then .error .https
  else if ¬ literal "http://" <+: url.bytes then .error .scheme
  else if (hostportOf url).length = 0 ∨ hostMax ≤ (hostportOf url).length then .error .noHost
  else
    let port := (splitPort (hostportOf url)).2
    if hport : 1 ≤ port ∧ port ≤ 65535 then
      match copyAscii hostMax (url.part (splitPort (hostportOf url)).1
          (List.Subset.trans (splitPort_subset _) (hostportOf_subset url))) .serverurl with
      | .error e => .error (.ofHost e)
      | .ok host =>
        if hshort : (want url).bytes.length < pathMax then
          .ok { host, port, low := hport.1, high := hport.2, path := want url, short := hshort
                absolute := want_head url }
        else .error .path
    else .error .port

/-! ### What a URL says -/

/-- Digits, and at least one. -/
def Numeral (ds : List Byte) : Prop := ds ≠ [] ∧ ∀ b ∈ ds, Http.isDigit b = true

/-- What is between the scheme and the path: a host, with a port or without. -/
inductive Authority : List Byte → List Byte → ℤ → Prop
  | bare {hp : List Byte} (h : ∀ host ds, Numeral ds → hp ≠ host ++ Http.colon :: ds) :
      Authority hp hp 80
  | port {host ds : List Byte} (h : Numeral ds) : Authority (host ++ Http.colon :: ds) host (atoi ds)

/-- The URL says so: `http://host[:port][/path]`. -/
def Spells (url : List Byte) (e : Endpoint) : Prop :=
  ∃ hp rest, url = literal "http://" ++ hp ++ rest ∧ slash ∉ hp ∧ 0 < hp.length ∧
    hp.length < hostMax ∧ Authority hp e.host.bytes e.port ∧
    (rest = e.path.bytes ∨ rest = [] ∧ e.path.bytes = [slash])

theorem Numeral.colon {ds : List Byte} (h : Numeral ds) : Http.colon ∉ ds := fun hmem =>
  absurd (h.2 Http.colon hmem) (by decide)

/-- A scan for a byte that is not there passes over all of them. -/
theorem forall_ne {sep : Byte} {bs : List Byte} (h : sep ∉ bs) : ∀ b ∈ bs, (b ≠ sep : Bool) = true := by
  intro b hb
  rw [decide_eq_true_eq]
  rintro rfl
  exact h hb

/-- Behind the last colon there is none. -/
theorem reverse_at_colon {host ds : List Byte} (h : Http.colon ∉ ds) :
    ((host ++ Http.colon :: ds).reverse.takeWhile (· ≠ Http.colon)).reverse = ds ∧
      (host ++ Http.colon :: ds).reverse.dropWhile (· ≠ Http.colon) = Http.colon :: host.reverse := by
  have hds := forall_ne fun hmem => h (List.mem_reverse.mp hmem)
  have hrev : (host ++ Http.colon :: ds).reverse = ds.reverse ++ Http.colon :: host.reverse := by simp
  rw [hrev, List.takeWhile_append_of_pos hds, List.dropWhile_append_of_pos hds]
  simp

theorem splitPort_at_colon {host ds : List Byte} (h : Http.colon ∉ ds) :
    splitPort (host ++ Http.colon :: ds) = if ds ≠ [] ∧ ds.all Http.isDigit then (host, atoi ds)
      else (host ++ Http.colon :: ds, 80) := by
  obtain ⟨htake, hdrop⟩ := @reverse_at_colon host ds h
  rw [splitPort, hdrop, htake]
  dsimp only
  rw [List.reverse_reverse]

theorem splitPort_bare {hp : List Byte} (h : Http.colon ∉ hp) : splitPort hp = (hp, 80) := by
  have hnone : hp.reverse.dropWhile (· ≠ Http.colon) = [] :=
    List.dropWhile_eq_nil_iff.mpr (forall_ne fun hmem => h (List.mem_reverse.mp hmem))
  rw [splitPort, hnone]

/-- The last colon of those there are. -/
theorem exists_last_colon {hp : List Byte} (h : Http.colon ∈ hp) :
    ∃ host ds, hp = host ++ Http.colon :: ds ∧ Http.colon ∉ ds := by
  obtain ⟨ds, host, hrev, hds⟩ := List.eq_append_cons_of_mem (List.mem_reverse.mpr h)
  refine ⟨host.reverse, ds.reverse, ?_, fun hmem => hds (List.mem_reverse.mp hmem)⟩
  rw [← List.reverse_reverse hp, hrev]
  simp

theorem splitPort_iff {hp host : List Byte} {port : ℤ} :
    splitPort hp = (host, port) ↔ Authority hp host port := by
  have hnumeral : ∀ ds : List Byte, (ds ≠ [] ∧ ds.all Http.isDigit) ↔ Numeral ds := fun ds => by
    rw [List.all_eq_true]
    rfl
  constructor
  · intro h
    by_cases hcolon : Http.colon ∈ hp
    · obtain ⟨host', ds, rfl, hds⟩ := exists_last_colon hcolon
      rw [splitPort_at_colon hds] at h
      split at h
      · next hnum =>
        obtain ⟨rfl, rfl⟩ := Prod.mk.inj h
        exact .port ((hnumeral ds).mp hnum)
      · next hnum =>
        obtain ⟨rfl, rfl⟩ := Prod.mk.inj h
        refine .bare fun host'' ds' hnum' heq => hnum ((hnumeral ds).mpr ?_)
        obtain ⟨htake, -⟩ := @reverse_at_colon host' ds hds
        obtain ⟨htake', -⟩ := @reverse_at_colon host'' ds' hnum'.colon
        rw [heq, htake'] at htake
        exact htake ▸ hnum'
    · rw [splitPort_bare hcolon] at h
      obtain ⟨rfl, rfl⟩ := Prod.mk.inj h
      exact .bare fun host' ds _ heq => hcolon (by rw [heq]; simp)
  · rintro (h | h)
    · by_cases hcolon : Http.colon ∈ hp
      · obtain ⟨host', ds, rfl, hds⟩ := exists_last_colon hcolon
        rw [splitPort_at_colon hds, if_neg fun hnum => h host' ds ((hnumeral ds).mp hnum) rfl]
      · exact splitPort_bare hcolon
    · rw [splitPort_at_colon h.colon, if_pos ((hnumeral _).mpr h)]

theorem Endpoint.ext_bytes {e e' : Endpoint} (hhost : e.host.bytes = e'.host.bytes)
    (hport : e.port = e'.port) (hpath : e.path.bytes = e'.path.bytes) : e = e' := by
  obtain ⟨⟨⟨host, _⟩, _, _⟩, port, _, _, ⟨path, _⟩, _, _⟩ := e
  obtain ⟨⟨⟨host', _⟩, _, _⟩, port', _, _, ⟨path', _⟩, _, _⟩ := e'
  dsimp only at hhost hport hpath
  subst hhost hport hpath
  rfl

theorem drop_scheme (p : List Byte) : (literal "http://" ++ p).drop 7 = p := by
  have hlength : (literal "http://").length = 7 := by decide +kernel
  rw [← hlength, List.drop_left]

theorem not_https {rest : List Byte} : ¬ literal "https://" <+: literal "http://" ++ rest := by
  rintro ⟨t, ht⟩
  have hfifth := congrArg (·[4]?) ht
  rw [List.getElem?_append_left (by decide +kernel), List.getElem?_append_left (by decide +kernel)] at hfifth
  exact absurd hfifth (by decide +kernel)

/-- What `parse_url` looks at. -/
theorem parseUrl_ok {url : CString} {e : Endpoint} : parseUrl url = .ok e ↔
    ¬ literal "https://" <+: url.bytes ∧ literal "http://" <+: url.bytes ∧
      0 < (hostportOf url).length ∧ (hostportOf url).length < hostMax ∧
      splitPort (hostportOf url) = (e.host.bytes, e.port) ∧ (want url).bytes = e.path.bytes := by
  constructor
  · intro h
    rw [parseUrl] at h
    split at h
    · cases h
    next hplain =>
    split at h
    · cases h
    next hscheme =>
    split at h
    · cases h
    next hlength =>
    obtain ⟨hpos, hlt⟩ := not_or.mp hlength
    dsimp only at h
    split at h
    swap
    · cases h
    split at h
    · cases h
    next host hhost =>
    split at h
    swap
    · cases h
    obtain rfl := Except.ok.inj h
    have hbytes := congrArg CString.bytes (copyAscii_ok hhost)
    exact ⟨hplain, not_not.mp hscheme, Nat.pos_of_ne_zero hpos, Nat.lt_of_not_le hlt,
      Prod.ext hbytes.symm rfl, rfl⟩
  · rintro ⟨hplain, hscheme, hpos, hlt, hsplit, hwant⟩
    have hlength : ¬ ((hostportOf url).length = 0 ∨ hostMax ≤ (hostportOf url).length) := by omega
    have hport : (splitPort (hostportOf url)).2 = e.port := congrArg Prod.snd hsplit
    have hrange : 1 ≤ (splitPort (hostportOf url)).2 ∧ (splitPort (hostportOf url)).2 ≤ 65535 :=
      hport ▸ ⟨e.low, e.high⟩
    have hshort : (want url).bytes.length < pathMax := hwant ▸ e.short
    have hhost : (url.part (splitPort (hostportOf url)).1
        (List.Subset.trans (splitPort_subset _) (hostportOf_subset url))).bytes = e.host.bytes :=
      congrArg Prod.fst hsplit
    obtain ⟨host, hcopy⟩ := @copyAscii_fits hostMax _ ⟨hhost ▸ e.host.short,
      hhost ▸ e.host.ascii⟩ .serverurl
    rw [parseUrl, if_neg hplain, if_neg (not_not.mpr hscheme), if_neg hlength]
    dsimp only
    rw [dif_pos hrange, hcopy]
    dsimp only
    rw [dif_pos hshort]
    refine congrArg _ (Endpoint.ext_bytes ?_ hport hwant)
    exact (congrArg CString.bytes (copyAscii_ok hcopy)).trans hhost

/-- The URL, cut where `parse_url` cuts it. -/
theorem cut_url {url hp rest : List Byte} (hurl : url = literal "http://" ++ hp ++ rest)
    (hslash : slash ∉ hp) (hhead : rest = [] ∨ rest.head? = some slash) :
    (url.drop 7).takeWhile (· ≠ slash) = hp ∧ (url.drop 7).dropWhile (· ≠ slash) = rest := by
  have hne := forall_ne hslash
  rw [hurl, List.append_assoc, drop_scheme, List.takeWhile_append_of_pos hne,
    List.dropWhile_append_of_pos hne]
  rcases hhead with rfl | hhead
  · simp
  · obtain ⟨rest', rfl⟩ := List.head?_eq_some_iff.mp hhead
    simp

/-- `parse_url` accepts what is spelt so, and reads what it says. -/
theorem url_read (url : CString) (e : Endpoint) : parseUrl url = .ok e ↔ Spells url.bytes e := by
  rw [parseUrl_ok]
  constructor
  · rintro ⟨-, ⟨p, hp⟩, hpos, hlt, hsplit, hwant⟩
    have hslash : slash ∉ hostportOf url := by
      intro hmem
      have hne := List.mem_takeWhile_imp hmem
      simp at hne
    refine ⟨hostportOf url, pathOf url, ?_, hslash, hpos, hlt, splitPort_iff.mp hsplit, ?_⟩
    · rw [hostportOf, pathOf, List.append_assoc, List.takeWhile_append_dropWhile, ← hp, drop_scheme]
    · rw [← hwant, want]
      split
      · next hnil => exact .inr ⟨hnil, rfl⟩
      · exact .inl rfl
  · rintro ⟨hp, rest, hurl, hslash, hpos, hlt, hauth, hrest⟩
    have hhead : rest = [] ∨ rest.head? = some slash := by
      rcases hrest with rfl | ⟨rfl, -⟩
      · exact .inr e.absolute
      · exact .inl rfl
    obtain ⟨hhostport, hpath⟩ := cut_url hurl hslash hhead
    have hhostport' : hostportOf url = hp := hhostport
    have hpath' : pathOf url = rest := hpath
    have hwant : (want url).bytes = e.path.bytes := by
      rw [want]
      split
      · next hnil =>
        rcases hrest with hrest | ⟨-, hroot⟩
        · have habs := e.absolute
          rw [← hrest, ← hpath', hnil] at habs
          cases habs
        · exact hroot.symm
      · next hne =>
        rcases hrest with hrest | ⟨hrest, -⟩
        · exact hpath'.trans hrest
        · exact absurd (hpath'.trans hrest) hne
    rw [hhostport', hurl, List.append_assoc]
    exact ⟨not_https, List.prefix_append _ _, hpos, hlt, splitPort_iff.mpr hauth, hwant⟩

/-! ### The request -/

/-- The format, with everything in its place. -/
def request (e : Endpoint) (body : List Byte) : List Byte :=
  [literal "POST ", e.path.bytes, literal " HTTP/1.1\x0d\x0aHost: ", e.host.bytes, literal ":",
    decimal e.port, literal "\x0d\x0aUser-Agent: combat-relay/1.0\x0d\x0aAccept: */*\x0d\x0a",
    literal "Content-Type: application/json\x0d\x0aContent-Length: ", decimal body.length,
    literal "\x0d\x0aConnection: close\x0d\x0a\x0d\x0a", body].flatten

/-- What a call of `send` comes to. -/
inductive Sending where
  | intr
  | failed
  | took (k : ℕ)
  deriving DecidableEq, Repr

/-- How far the loop around `send` has come. -/
inductive Loop where
  | under | failed | whole
  deriving DecidableEq, Repr

/-- The loop around `send`: what goes out, with so much of the request gone. A count of zero is a
    failure. -/
def sendLoop (req : List Byte) : ℕ → List Sending → List Byte × Loop
  | off, [] => ([], if off < req.length then .under else .whole)
  | off, s :: ss =>
    if off < req.length then
      match s with
      | .intr => sendLoop req off ss
      | .failed => ([], .failed)
      | .took 0 => ([], .failed)
      | .took (k + 1) =>
        let (wire, loop) := sendLoop req (off + (k + 1)) ss
        ((req.drop off).take (k + 1) ++ wire, loop)
    else ([], .whole)

/-- What `http_post` puts on the wire, if the request is not too large. -/
def httpPost (e : Endpoint) (body : List Byte) (ss : List Sending) : Option (List Byte × Loop) :=
  let (req, rlen) := snprintf reqMax (request e body)
  if reqMax ≤ rlen then none else some (sendLoop req 0 ss)

/-- What goes out is the request from here on, as far as it goes. -/
theorem sendLoop_spec (req : List Byte) (off : ℕ) (ss : List Sending) :
    (sendLoop req off ss).1 <+: req.drop off ∧
      ((sendLoop req off ss).2 = .whole → (sendLoop req off ss).1 = req.drop off) := by
  induction ss generalizing off with
  | nil =>
    refine ⟨List.nil_prefix, fun h => ?_⟩
    have hend : req.length ≤ off := by
      by_contra hlt
      rw [sendLoop, if_pos (Nat.lt_of_not_le hlt)] at h
      cases h
    exact (List.drop_eq_nil_of_le hend).symm
  | cons s ss ih =>
    by_cases hend : off < req.length
    swap
    · have hstop : sendLoop req off (s :: ss) = ([], .whole) := by
        rw [sendLoop.eq_def]
        exact if_neg hend
      rw [hstop]
      exact ⟨List.nil_prefix, fun _ => (List.drop_eq_nil_of_le (Nat.le_of_not_lt hend)).symm⟩
    rw [sendLoop.eq_def]
    dsimp only
    rw [if_pos hend]
    cases s with
    | intr => exact ih off
    | failed => exact ⟨List.nil_prefix, fun h => by cases h⟩
    | took k =>
      cases k with
      | zero => exact ⟨List.nil_prefix, fun h => by cases h⟩
      | succ k =>
        obtain ⟨⟨rest, hrest⟩, hwhole⟩ := ih (off + (k + 1))
        have hcut : (req.drop off).take (k + 1) ++ req.drop (off + (k + 1)) = req.drop off := by
          rw [← List.drop_drop, List.take_append_drop]
        dsimp only
        constructor
        · exact ⟨rest, by rw [List.append_assoc, hrest, hcut]⟩
        · exact fun h => by rw [hwhole h, hcut]

/-! ### What is read of it -/

/-- The request that is meant. -/
def Endpoint.post (e : Endpoint) (body : List Byte) : Http.Request where
  method := literal "POST"
  target := e.path.bytes
  version := literal "HTTP/1.1"
  headers := [(literal "Host", e.host.bytes ++ [Http.colon] ++ decimal e.port),
    (literal "User-Agent", literal "combat-relay/1.0"), (literal "Accept", literal "*/*"),
    (literal "Content-Type", literal "application/json"),
    (literal "Content-Length", decimal body.length), (literal "Connection", literal "close")]
  body := body

/-- Where the format goes from one to the next. -/
theorem format_pieces :
    literal "POST " = literal "POST" ++ [Http.sp] ∧
      literal " HTTP/1.1\x0d\x0aHost: " =
        [Http.sp] ++ (literal "HTTP/1.1" ++ (Http.crlf ++ (literal "Host" ++ [Http.colon, Http.sp]))) ∧
      literal ":" = [Http.colon] ∧
      literal "\x0d\x0aUser-Agent: combat-relay/1.0\x0d\x0aAccept: */*\x0d\x0a" =
        Http.crlf ++ (literal "User-Agent" ++ ([Http.colon, Http.sp] ++ (literal "combat-relay/1.0" ++
          (Http.crlf ++ (literal "Accept" ++ ([Http.colon, Http.sp] ++ (literal "*/*" ++ Http.crlf))))))) ∧
      literal "Content-Type: application/json\x0d\x0aContent-Length: " =
        literal "Content-Type" ++ ([Http.colon, Http.sp] ++ (literal "application/json" ++
          (Http.crlf ++ (literal "Content-Length" ++ [Http.colon, Http.sp])))) ∧
      literal "\x0d\x0aConnection: close\x0d\x0a\x0d\x0a" =
        Http.crlf ++ (literal "Connection" ++ ([Http.colon, Http.sp] ++ (literal "close" ++
          (Http.crlf ++ Http.crlf)))) := by
  decide +kernel

theorem request_eq (e : Endpoint) (body : List Byte) : request e body = (e.post body).write := by
  obtain ⟨hpost, hhost, hport, hagent, htype, hclose⟩ := format_pieces
  simp only [request, Http.Request.write, Endpoint.post, Http.writeHeader, List.flatMap_cons,
    List.flatMap_nil, List.flatten_cons, List.flatten_nil, List.append_nil, hpost, hhost, hport, hagent,
    htype, hclose, List.append_assoc]

/-- A number that is not negative is printed in digits. -/
theorem decimal_natCast (n : ℕ) : decimal n = Http.digits n := by
  have hrepr : (n : ℤ).repr = n.repr := rfl
  rw [decimal, hrepr, Nat.toList_repr, utf8, Http.digits, List.map_eq_flatMap]
  refine List.flatMap_congr fun ch hch => ?_
  have hdigit := Nat.isDigit_of_mem_toDigits (by decide) (by decide) hch
  simp only [Char.isDigit, Bool.and_eq_true, decide_eq_true_eq] at hdigit
  have hsize : ch.utf8Size = 1 :=
    Char.utf8Size_eq_one_iff.mpr (UInt32.le_trans hdigit.2 (by decide))
  rw [String.utf8EncodeChar_eq_singleton hsize]
  rfl

theorem decimal_length {n : ℤ} {k : ℕ} (hk : 0 < k) (hlow : 0 ≤ n) (hhigh : n < 10 ^ k) :
    (decimal n).length ≤ k := by
  obtain ⟨m, rfl⟩ := Int.eq_ofNat_of_zero_le hlow
  have hm : m < 10 ^ k := by exact_mod_cast hhigh
  rw [decimal_natCast, Http.digits, List.length_map]
  exact (Nat.length_toDigits_le_iff (by decide) hk).mpr hm

theorem pieces_length :
    (literal "POST ").length = 5 ∧ (literal " HTTP/1.1\x0d\x0aHost: ").length = 17 ∧
      (literal ":").length = 1 ∧
      (literal "\x0d\x0aUser-Agent: combat-relay/1.0\x0d\x0aAccept: */*\x0d\x0a").length = 45 ∧
      (literal "Content-Type: application/json\x0d\x0aContent-Length: ").length = 48 ∧
      (literal "\x0d\x0aConnection: close\x0d\x0a\x0d\x0a").length = 23 := by
  decide +kernel

/-- There is room for a request. -/
theorem request_length (e : Endpoint) {body : List Byte} (hbody : body.length < jsonMax) :
    (request e body).length < reqMax := by
  have hhost := e.host.short
  have hpath := e.short
  have hport : (decimal e.port).length ≤ 5 := by
    have hlow := e.low
    have hhigh := e.high
    exact decimal_length (by decide) (by omega) (by omega)
  have hcount : (decimal body.length).length ≤ 4 := by
    have hmax : jsonMax = 4096 := rfl
    exact decimal_length (by decide) (by omega) (by omega)
  simp only [request, List.length_flatten, List.map_cons, List.map_nil, List.sum_cons, List.sum_nil,
    pieces_length]
  simp only [hostMax, pathMax] at hhost hpath
  have hmax : jsonMax = 4096 := rfl
  have hreq : reqMax = 5120 := rfl
  omega

theorem fixed_valid :
    (∀ b ∈ literal "POST", b ≠ Http.sp ∧ b ≠ Http.lf) ∧
      (∀ b ∈ literal "HTTP/1.1", b ≠ Http.sp ∧ b ≠ Http.lf) ∧
      (∀ h ∈ [(literal "User-Agent", literal "combat-relay/1.0"), (literal "Accept", literal "*/*"),
        (literal "Content-Type", literal "application/json"),
        (literal "Connection", literal "close"), (literal "Content-Length", [])], Http.Clean h) ∧
      Http.Clean (literal "Host", []) := by
  decide +kernel

theorem names_apart :
    (literal "Content-Length" == literal "Host") = false ∧
      (literal "Content-Length" == literal "User-Agent") = false ∧
      (literal "Content-Length" == literal "Accept") = false ∧
      (literal "Content-Length" == literal "Content-Type") = false := by
  decide +kernel

theorem clean_text {name text : List Byte} (h : Http.Clean (name, [])) (hlf : Http.lf ∉ text)
    (hsp : text.head? ≠ some Http.sp) : Http.Clean (name, text) :=
  ⟨h.named, h.name, hlf, hsp⟩

theorem clean_decimal {name : List Byte} (h : Http.Clean (name, [])) (n : ℕ) :
    Http.Clean (name, decimal n) := by
  have hdigit : ∀ b ∈ decimal n, b ≠ Http.lf ∧ b ≠ Http.sp := by
    intro b hb
    rw [decimal_natCast] at hb
    have hb := Http.isDigit_digits hb
    constructor
    · rintro rfl
      exact absurd hb (by decide)
    · rintro rfl
      exact absurd hb (by decide)
  refine clean_text h (fun hmem => (hdigit _ hmem).1 rfl) fun hhead => ?_
  exact (hdigit _ (List.mem_of_mem_head? hhead)).2 rfl

/-- The request is well formed if the host and the path end neither a line nor a word. -/
theorem post_valid {e : Endpoint} (body : List Byte)
    (hhost : ∀ b ∈ e.host.bytes, b ≠ Http.sp ∧ b ≠ Http.lf)
    (hpath : ∀ b ∈ e.path.bytes, b ≠ Http.sp ∧ b ≠ Http.lf) :
    (e.post body).Valid (literal "Content-Length") := by
  obtain ⟨hmethod, hversion, hfixed, hname⟩ := fixed_valid
  simp only [List.forall_mem_cons] at hfixed
  obtain ⟨hagent, haccept, htype, hclose, hlength, -⟩ := hfixed
  have hlow := e.low
  obtain ⟨port, hport⟩ := Int.eq_ofNat_of_zero_le (show 0 ≤ e.port by omega)
  have hdigits := clean_decimal hname port
  have haddress : Http.Clean (literal "Host", e.host.bytes ++ [Http.colon] ++ decimal e.port) := by
    refine clean_text hname ?_ ?_
    · simp only [List.mem_append, List.mem_singleton]
      rintro ((hmem | hmem) | hmem)
      · exact (hhost _ hmem).2 rfl
      · exact absurd hmem (by decide)
      · exact hdigits.text (hport ▸ hmem)
    · cases hbytes : e.host.bytes with
      | nil => exact fun h => absurd (Option.some.inj h) (by decide)
      | cons b host =>
        intro h
        exact (hhost b (by rw [hbytes]; exact List.mem_cons_self)).1 (Option.some.inj h)
  refine ⟨hmethod, hpath, hversion, ?_, ?_⟩
  · simp only [Endpoint.post, List.forall_mem_cons]
    exact ⟨haddress, hagent, haccept, htype, clean_decimal hlength body.length, hclose,
      List.forall_mem_nil _⟩
  · obtain ⟨hhost', hagent', haccept', htype'⟩ := names_apart
    simp only [Endpoint.post, List.lookup_cons, hhost', hagent', haccept', htype', beq_self_eq_true]
    rw [decimal_natCast]

/-- What is kept of a URL is in it, but for the root. -/
theorem mem_of_parseUrl {url : CString} {e : Endpoint} (hurl : parseUrl url = .ok e) :
    (∀ b ∈ e.host.bytes, b ∈ url.bytes) ∧ ∀ b ∈ e.path.bytes, b ∈ url.bytes ∨ b = slash := by
  obtain ⟨-, -, -, -, hsplit, hwant⟩ := parseUrl_ok.mp hurl
  constructor
  · intro b hb
    have hhost : (splitPort (hostportOf url)).1 = e.host.bytes := congrArg Prod.fst hsplit
    exact hostportOf_subset url (splitPort_subset _ (hhost ▸ hb))
  · intro b hb
    rw [← hwant, want] at hb
    split at hb
    · exact .inr (List.mem_singleton.mp hb)
    · exact .inl (pathOf_subset url hb)

/-- A POST gets through or fails, but never says anything else. For a URL that `parse_url` has taken,
    what `render_json` leaves is never too large for the request's buffer; what goes out is the request,
    as far as it goes, however the kernel takes it; and if the URL has no blank and no end of line in it,
    the request is read as the POST that is meant: to the URL's path, at its host and port, with the
    whole of the body and nothing behind it. -/
theorem post_sends_request {url : CString} {e : Endpoint} {l : Room} (hurl : parseUrl url = .ok e)
    {snap : Snapshot} {body : List Byte} (hbody : renderJson l snap jsonMax = some body) :
    (∀ ss, ∃ wire loop, httpPost e body ss = some (wire, loop) ∧ wire <+: request e body ∧
      (loop = .whole → wire = request e body)) ∧
    ((∀ b ∈ url.bytes, b ≠ Http.sp ∧ b ≠ Http.lf) →
      Http.read (literal "Content-Length") (request e body) = some (e.post body)) := by
  have hshort : body.length < jsonMax := by
    rw [renderJson_eq] at hbody
    split at hbody
    · next hlt => exact Option.some.inj hbody ▸ hlt
    · cases hbody
  constructor
  · intro ss
    have hlen := request_length e hshort
    have hwhole : (request e body).take (reqMax - 1) = request e body :=
      List.take_of_length_le (by omega)
    obtain ⟨hout, hall⟩ := sendLoop_spec (request e body) 0 ss
    refine ⟨_, _, ?_, hout, hall⟩
    rw [httpPost, snprintf, hwhole]
    exact if_neg (Nat.not_le_of_lt hlen)
  · intro hclean
    obtain ⟨hhost, hpath⟩ := mem_of_parseUrl hurl
    rw [request_eq]
    refine Http.read_write (post_valid body (fun b hb => hclean b (hhost b hb)) fun b hb => ?_)
    rcases hpath b hb with hb | rfl
    · exact hclean b hb
    · decide

/-- The Lobby's own. -/
def lobbyUrl : CString :=
  ⟨literal "http://lobby.fujinet.online:8080/server", by decide +kernel⟩

theorem post_sends_request_stock : ∃ e l body, parseUrl lobbyUrl = .ok e ∧ e.port = 8080 ∧
    renderJson l ⟨false, 2⟩ jsonMax = some body ∧
    Http.read (literal "Content-Length") (request e body) = some (e.post body) := by
  have hport : (parseUrl lobbyUrl).toOption.map (·.port) = some 8080 := by decide +kernel
  obtain ⟨e, he, hport⟩ := Option.map_eq_some_iff.mp hport
  have hurl : parseUrl lobbyUrl = .ok e := by
    cases hparse : parseUrl lobbyUrl with
    | error bad =>
      rw [hparse] at he
      cases he
    | ok e' =>
      rw [hparse] at he
      exact congrArg _ (Option.some.inj he)
  obtain ⟨l, hl⟩ := (lobbyStart_iff (stock videoOlympics)).mpr (by decide +kernel)
  have hbody : renderJson l ⟨false, 2⟩ jsonMax = some (l.text ⟨false, 2⟩ escPiece) := by
    rw [renderJson_eq, text_width, lobbyStart_ok hl, if_pos (by decide +kernel)]
  exact ⟨e, l, _, hurl, hport, hbody, (post_sends_request hurl hbody).2 (by decide +kernel)⟩

end VO.Port.Lobby
