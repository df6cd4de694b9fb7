import VideoOlympics.Base.Json
import VideoOlympics.Port.Lobby
import VideoOlympics.Port.Repr
import VideoOlympics.Relay.Room

/-! What the two publishers POST. Python serialises a dictionary; C prints into a format, with its strings
    escaped one by one, and gives up when the text is longer than its buffer. The two tables of escapes
    differ in one character. -/

namespace VO.Lobby
open Relay Json

/-- What the publisher is told on the command line. -/
structure Args where
  gameName : List Char
  lobbyAppkey : ℤ
  serverName : List Char
  region : List Char
  lobbyServerurl : List Char
  lobbyClientUrl : List Char

def Status.text : Status → List Char
  | .online => "online".toList
  | .offline => "offline".toList

/-- `self.payload`, with either status and after any update. `__init__` sets `maxplayers` to 2. -/
def Args.payload (a : Args) (status : Status) (maxplayers curplayers : ℤ) : Value :=
  .dict [("game".toList, .str a.gameName),
    ("appkey".toList, .int a.lobbyAppkey),
    ("server".toList, .str a.serverName),
    ("region".toList, .str a.region),
    ("serverurl".toList, .str a.lobbyServerurl),
    ("status".toList, .str status.text),
    ("maxplayers".toList, .int maxplayers),
    ("curplayers".toList, .int curplayers),
    ("clients".toList, .list [.dict [("platform".toList, .str "a2600".toList),
      ("url".toList, .str a.lobbyClientUrl)]])]

/-- `json.dumps(self.payload).encode()`. -/
def Args.body (a : Args) (status : Status) (maxplayers curplayers : ℤ) : List Byte :=
  utf8 (dumps (a.payload status maxplayers curplayers))

theorem Status.text_plain (status : Status) : status.text.flatMap escape = status.text := by
  cases status with
  | online => decide
  | offline => decide

set_option maxRecDepth 4000 in
/-- The text on one line, with the strings in their places. -/
theorem dumps_payload (a : Args) (status : Status) (maxplayers curplayers : ℤ) :
    dumps (a.payload status maxplayers curplayers) =
      ["\x7b\"game\": \"".toList, a.gameName.flatMap escape,
        "\", \"appkey\": ".toList, a.lobbyAppkey.repr.toList,
        ", \"server\": \"".toList, a.serverName.flatMap escape,
        "\", \"region\": \"".toList, a.region.flatMap escape,
        "\", \"serverurl\": \"".toList, a.lobbyServerurl.flatMap escape,
        "\", \"status\": \"".toList, status.text,
        "\", \"maxplayers\": ".toList, maxplayers.repr.toList,
        ", \"curplayers\": ".toList, curplayers.repr.toList,
        ", \"clients\": [\x7b\"platform\": \"a2600\", \"url\": \"".toList,
        a.lobbyClientUrl.flatMap escape, "\"\x7d]\x7d".toList].flatten := by
  simp only [Args.payload, dumps, members, items, quoted, status.text_plain, List.append_assoc,
    List.cons_append]
  rfl

end VO.Lobby

namespace VO.Port
open Relay

namespace Lobby

/-- `STR_MAX`. -/
def strMax : ℕ := 256
/-- `sizeof l->region`. -/
def regionMax : ℕ := 64
/-- `JSON_MAX`. -/
def jsonMax : ℕ := 4096

/-! ### What is configured -/

/-- A string, without the NUL behind it. -/
structure CString where
  bytes : List Byte
  nonzero : 0 ∉ bytes

/-- A string that fits its array, and is ASCII. -/
structure Field (size : ℕ) extends CString where
  short : bytes.length < size
  ascii : ∀ b ∈ bytes, b ≤ 0x7F

inductive Param where
  | serverurl | clientUrl | gameName | serverName | region
  deriving DecidableEq, Repr

/-- What `copy_ascii` warns of. -/
inductive Unfit where
  | tooLong (what : Param) (n max : ℕ)
  | nonAscii (what : Param)
  deriving DecidableEq, Repr

def copyAscii (size : ℕ) (src : CString) (what : Param) : Except Unfit (Field size) :=
  if hlong : size ≤ src.bytes.length then .error (.tooLong what src.bytes.length (size - 1))
  else if hascii : src.bytes.any (fun b => 0x7F < b) = true then .error (.nonAscii what)
  else .ok { src with
    short := Nat.not_le.mp hlong
    ascii := fun b hb => BitVec.not_lt.mp fun h =>
      hascii (List.any_eq_true.mpr ⟨b, hb, decide_eq_true h⟩) }

/-- What `lobby_start` is called with, besides the URL it POSTs to and the interval. The numbers are only
    ever printed. -/
structure Settings where
  serverurl : CString
  clientUrl : CString
  appkey : ℤ
  region : CString
  gameName : CString
  serverName : CString
  maxplayers : ℤ

/-- What `struct lobby` keeps of it. -/
structure Room where
  game : Field strMax
  server : Field strMax
  region : Field regionMax
  serverurl : Field strMax
  clientUrl : Field strMax
  appkey : ℤ
  maxplayers : ℤ

/-- `lobby_start`, once it has a usable URL. -/
def lobbyStart (a : Settings) : Except Unfit Room := do
  let serverurl ← copyAscii strMax a.serverurl .serverurl
  let clientUrl ← copyAscii strMax a.clientUrl .clientUrl
  let game ← copyAscii strMax a.gameName .gameName
  let server ← copyAscii strMax a.serverName .serverName
  let region ← copyAscii regionMax a.region .region
  return { game, server, region, serverurl, clientUrl, appkey := a.appkey, maxplayers := a.maxplayers }

/-! ### What is rendered -/

/-- `%04x` of a byte. -/
def hex04 (b : Byte) : List Byte := [0x30, 0x30, hexByte (b >>> 4), hexByte (b &&& 0x0F)]

/-- What one turn of `json_esc` copies. -/
def escPiece (b : Byte) : List Byte :=
  if b = 0x22 then [0x5C, 0x22]
  else if b = 0x5C then [0x5C, 0x5C]
  else if b = 0x08 then [0x5C, 0x62]
  else if b = 0x0C then [0x5C, 0x66]
  else if b = 0x0A then [0x5C, 0x6E]
  else if b = 0x0D then [0x5C, 0x72]
  else if b = 0x09 then [0x5C, 0x74]
  else if b < 0x20 then [0x5C, 0x75] ++ hex04 b
  else [b]

/-- `json_esc`: what it leaves in an array of this size, in front of the NUL, unless it gives up. -/
def jsonEsc (src : CString) (size : ℕ) : Option (List Byte) :=
  Scratch.collect size escPiece src.bytes []

/-- What is printed into a buffer, and how much there was to print. -/
def snprintf (size : ℕ) (text : List Byte) : List Byte × ℕ := (text.take (size - 1), text.length)

/-- `%d`. -/
def decimal (n : ℤ) : List Byte := utf8 n.repr.toList

/-- A text of the source. -/
def literal (s : String) : List Byte := utf8 s.toList

/-- The format, with everything in its place. -/
def format (l : Room) (snap : Snapshot) (g s r su cu : List Byte) : List Byte :=
  [literal "\x7b\"game\": \"", g, literal "\", \"appkey\": ", decimal l.appkey,
    literal ", \"server\": \"", s, literal "\", \"region\": \"", r,
    literal "\", \"serverurl\": \"", su,
    literal "\", \"status\": \"", if snap.offline then literal "offline" else literal "online",
    literal "\", \"maxplayers\": ", decimal l.maxplayers,
    literal ", \"curplayers\": ", decimal snap.curplayers,
    literal ", \"clients\": [\x7b\"platform\": \"a2600\", \"url\": \"", cu,
    literal "\"\x7d]\x7d"].flatten

def renderJson (l : Room) (snap : Snapshot) (size : ℕ) : Option (List Byte) := do
  let g ← jsonEsc l.game.toCString (strMax * 6)
  let s ← jsonEsc l.server.toCString (strMax * 6)
  let r ← jsonEsc l.region.toCString (regionMax * 6)
  let su ← jsonEsc l.serverurl.toCString (strMax * 6)
  let cu ← jsonEsc l.clientUrl.toCString (strMax * 6)
  let (buf, n) := snprintf size (format l snap g s r su cu)
  if size ≤ n then none else some buf

/-! ### The two tables -/

/-- What Python makes of a byte, in bytes. -/
def pyPiece (b : Byte) : List Byte := utf8 (Json.escape (decodeByte b))

/-- How many bytes `json_esc` makes of one. -/
def escWidth (b : Byte) : ℕ :=
  if b = 0x22 ∨ b = 0x5C ∨ b = 0x08 ∨ b = 0x0C ∨ b = 0x0A ∨ b = 0x0D ∨ b = 0x09 then 2
  else if b < 0x20 then 6
  else 1

theorem escPiece_length : ∀ b, (escPiece b).length = escWidth b := by
  decide +kernel

theorem escWidth_le : ∀ b, escWidth b ≤ 6 := by
  decide +kernel

/-- DEL is not printable, and Python writes it as a number. -/
theorem escPiece_python : ∀ b : Byte, b ≤ 0x7F → (escPiece b).length ≤ (pyPiece b).length ∧
    ((escPiece b).length = (pyPiece b).length → b ≠ 0x7F) ∧ (b ≠ 0x7F → escPiece b = pyPiece b) := by
  decide +kernel

theorem utf8_escape (bs : List Byte) :
    utf8 ((decode bs).flatMap Json.escape) = bs.flatMap pyPiece := by
  rw [utf8, decode_eq, List.flatMap_map, List.flatMap_assoc]
  rfl

/-! ### What `copy_ascii` lets in -/

theorem copyAscii_ok {size : ℕ} {src : CString} {what : Param} {f : Field size}
    (h : copyAscii size src what = .ok f) : f.toCString = src := by
  rw [copyAscii] at h
  split at h
  · cases h
  · split at h
    · cases h
    · obtain rfl := Except.ok.inj h
      rfl

/-- It fits an array of this size, and is ASCII. -/
def CString.Fits (src : CString) (size : ℕ) : Prop :=
  src.bytes.length < size ∧ ∀ b ∈ src.bytes, b ≤ 0x7F

instance (src : CString) (size : ℕ) : Decidable (src.Fits size) :=
  decidable_of_iff (src.bytes.length < size ∧ src.bytes.all (fun b => b ≤ 0x7F) = true) <| by
    simp only [CString.Fits, List.all_eq_true, decide_eq_true_eq]

theorem copyAscii_fits {size : ℕ} {src : CString} (h : src.Fits size) (what : Param) :
    ∃ f : Field size, copyAscii size src what = .ok f := by
  have hascii : ¬ src.bytes.any (fun b => 0x7F < b) = true := by
    intro hany
    obtain ⟨b, hb, hlt⟩ := List.any_eq_true.mp hany
    exact BitVec.not_lt.mpr (h.2 b hb) (of_decide_eq_true hlt)
  rw [copyAscii, dif_neg (Nat.not_le.mpr h.1), dif_neg hascii]
  exact ⟨_, rfl⟩

/-- The settings that are kept. -/
def Room.settings (l : Room) : Settings :=
  { serverurl := l.serverurl.toCString, clientUrl := l.clientUrl.toCString, appkey := l.appkey
    region := l.region.toCString, gameName := l.game.toCString, serverName := l.server.toCString
    maxplayers := l.maxplayers }

theorem lobbyStart_ok {a : Settings} {l : Room} (h : lobbyStart a = .ok l) : l.settings = a := by
  obtain ⟨serverurl, hserverurl, h⟩ := Server.bind_ok h
  obtain ⟨clientUrl, hclientUrl, h⟩ := Server.bind_ok h
  obtain ⟨game, hgame, h⟩ := Server.bind_ok h
  obtain ⟨server, hserver, h⟩ := Server.bind_ok h
  obtain ⟨region, hregion, h⟩ := Server.bind_ok h
  obtain rfl := Except.ok.inj h
  simp only [Room.settings, copyAscii_ok hserverurl, copyAscii_ok hclientUrl, copyAscii_ok hgame,
    copyAscii_ok hserver, copyAscii_ok hregion]

/-- What `lobby_start` accepts. -/
theorem lobbyStart_iff (a : Settings) : (∃ l, lobbyStart a = .ok l) ↔
    a.serverurl.Fits strMax ∧ a.clientUrl.Fits strMax ∧ a.gameName.Fits strMax ∧
      a.serverName.Fits strMax ∧ a.region.Fits regionMax := by
  constructor
  · rintro ⟨l, hl⟩
    obtain rfl := lobbyStart_ok hl
    exact ⟨⟨l.serverurl.short, l.serverurl.ascii⟩, ⟨l.clientUrl.short, l.clientUrl.ascii⟩,
      ⟨l.game.short, l.game.ascii⟩, ⟨l.server.short, l.server.ascii⟩, ⟨l.region.short, l.region.ascii⟩⟩
  · rintro ⟨hserverurl, hclientUrl, hgame, hserver, hregion⟩
    obtain ⟨serverurl, hserverurl⟩ := copyAscii_fits hserverurl .serverurl
    obtain ⟨clientUrl, hclientUrl⟩ := copyAscii_fits hclientUrl .clientUrl
    obtain ⟨game, hgame⟩ := copyAscii_fits hgame .gameName
    obtain ⟨server, hserver⟩ := copyAscii_fits hserver .serverName
    obtain ⟨region, hregion⟩ := copyAscii_fits hregion .region
    rw [lobbyStart, hserverurl, hclientUrl, hgame, hserver, hregion]
    exact ⟨_, rfl⟩

/-- As Python reads the same command line. -/
def Settings.args (a : Settings) : VO.Lobby.Args :=
  { gameName := decode a.gameName.bytes, lobbyAppkey := a.appkey
    serverName := decode a.serverName.bytes, region := decode a.region.bytes
    lobbyServerurl := decode a.serverurl.bytes, lobbyClientUrl := decode a.clientUrl.bytes }

/-- All five strings. -/
def Settings.typed (a : Settings) : List Byte :=
  a.gameName.bytes ++ (a.serverName.bytes ++ (a.region.bytes ++
    (a.serverurl.bytes ++ a.clientUrl.bytes)))

def Snapshot.status (snap : Snapshot) : VO.Lobby.Status :=
  if snap.offline then .offline else .online

/-! ### The text -/

/-- The text, by a table of escapes. -/
def Room.text (l : Room) (snap : Snapshot) (piece : Byte → List Byte) : List Byte :=
  format l snap (l.game.bytes.flatMap piece) (l.server.bytes.flatMap piece)
    (l.region.bytes.flatMap piece) (l.serverurl.bytes.flatMap piece) (l.clientUrl.bytes.flatMap piece)

/-- How long the text is without the strings. -/
def Settings.frame (a : Settings) (snap : Snapshot) : ℕ :=
  162 + (if snap.offline then 7 else 6) + (decimal a.appkey).length + (decimal a.maxplayers).length +
    (decimal snap.curplayers).length

theorem literals_length :
    (literal "\x7b\"game\": \"").length = 10 ∧ (literal "\", \"appkey\": ").length = 13 ∧
      (literal ", \"server\": \"").length = 13 ∧ (literal "\", \"region\": \"").length = 14 ∧
      (literal "\", \"serverurl\": \"").length = 17 ∧ (literal "\", \"status\": \"").length = 14 ∧
      (literal "\", \"maxplayers\": ").length = 17 ∧ (literal ", \"curplayers\": ").length = 16 ∧
      (literal ", \"clients\": [\x7b\"platform\": \"a2600\", \"url\": \"").length = 44 ∧
      (literal "\"\x7d]\x7d").length = 4 := by
  decide +kernel

theorem status_length (offline : Bool) :
    (if offline then literal "offline" else literal "online").length = if offline then 7 else 6 := by
  cases offline with
  | true => rfl
  | false => rfl

theorem text_length (l : Room) (snap : Snapshot) (piece : Byte → List Byte) :
    (l.text snap piece).length = l.settings.frame snap + (l.settings.typed.flatMap piece).length := by
  simp only [Room.text, format, Settings.frame, Settings.typed, Room.settings, List.length_flatten,
    List.map_cons, List.map_nil, List.sum_cons, List.sum_nil, List.flatMap_append, List.length_append,
    literals_length, status_length]
  omega

/-- A string of an array takes no more than six times its bytes. -/
theorem jsonEsc_field {size : ℕ} (f : Field size) :
    jsonEsc f.toCString (size * 6) = some (f.bytes.flatMap escPiece) := by
  have hpiece : ∀ b, (escPiece b).length ≤ 6 := fun b => (escPiece_length b).trans_le (escWidth_le b)
  have hlen := Scratch.length_flatMap_le_mul hpiece f.bytes
  rw [jsonEsc, Scratch.collect_eq, List.nil_append]
  have hshort := f.short
  exact if_pos (by omega)

/-- The text is there as a whole if there was not too much to print. -/
theorem snprintf_whole (size : ℕ) (text : List Byte) :
    (if size ≤ (snprintf size text).2 then none else some (snprintf size text).1) =
      if text.length < size then some text else none := by
  rw [snprintf]
  by_cases hfits : text.length < size
  · rw [if_neg (Nat.not_le.mpr hfits), if_pos hfits, List.take_of_length_le (by omega)]
  · rw [if_pos (Nat.not_lt.mp hfits), if_neg hfits]

theorem renderJson_eq (l : Room) (snap : Snapshot) (size : ℕ) : renderJson l snap size =
    if (l.text snap escPiece).length < size then some (l.text snap escPiece) else none := by
  simp only [renderJson, jsonEsc_field, Option.bind_eq_bind, Option.bind_some, Room.text]
  exact snprintf_whole size _

theorem body_eq (l : Room) (snap : Snapshot) :
    l.settings.args.body snap.status l.settings.maxplayers snap.curplayers = l.text snap pyPiece := by
  have hstatus : utf8 snap.status.text =
      if snap.offline then literal "offline" else literal "online" := by
    rw [Snapshot.status]
    cases snap.offline with
    | true => rfl
    | false => rfl
  rw [VO.Lobby.Args.body, VO.Lobby.dumps_payload, utf8_flatten]
  simp only [List.map_cons, List.map_nil, hstatus, Settings.args, utf8_escape, Room.text, format]
  rfl

/-! ### Where they differ -/

theorem typed_ascii (l : Room) : ∀ b ∈ l.settings.typed, b ≤ 0x7F := by
  intro b hb
  simp only [Settings.typed, Room.settings, List.mem_append] at hb
  rcases hb with hb | hb | hb | hb | hb
  · exact l.game.ascii b hb
  · exact l.server.ascii b hb
  · exact l.region.ascii b hb
  · exact l.serverurl.ascii b hb
  · exact l.clientUrl.ascii b hb

/-- Where no byte is a DEL the two texts are the same. Where one is, Python's is the longer. -/
theorem text_eq_iff (l : Room) (snap : Snapshot) :
    l.text snap escPiece = l.text snap pyPiece ↔ 0x7F ∉ l.settings.typed := by
  constructor
  · intro htext hdel
    have hlen := congrArg List.length htext
    rw [text_length, text_length] at hlen
    have hle : ∀ b ∈ l.settings.typed, (escPiece b).length ≤ (pyPiece b).length :=
      fun b hb => (escPiece_python b (typed_ascii l b hb)).1
    have hsame := Scratch.length_flatMap_eq hle (Nat.add_left_cancel hlen)
    exact (escPiece_python 0x7F (by decide)).2.1 (hsame 0x7F hdel) rfl
  · intro hdel
    have hpiece : ∀ b ∈ l.settings.typed, escPiece b = pyPiece b := fun b hb =>
      (escPiece_python b (typed_ascii l b hb)).2.2 fun h => hdel (h ▸ hb)
    simp only [Settings.typed, Room.settings, List.forall_mem_append] at hpiece
    obtain ⟨hgame, hserver, hregion, hserverurl, hclientUrl⟩ := hpiece
    rw [Room.text, Room.text, List.flatMap_congr hgame, List.flatMap_congr hserver,
      List.flatMap_congr hregion, List.flatMap_congr hserverurl, List.flatMap_congr hclientUrl]

/-- How long the text is: one byte for each that is typed, two for a quote, a backslash and those with a
    letter of their own, six for other control characters; and what is around them. -/
def Settings.width (a : Settings) (snap : Snapshot) : ℕ :=
  a.frame snap + (a.typed.map escWidth).sum

theorem text_width (l : Room) (snap : Snapshot) :
    (l.text snap escPiece).length = l.settings.width snap := by
  rw [text_length, Settings.width, List.length_flatMap]
  simp only [escPiece_length]

theorem renderJson_iff (l : Room) (snap : Snapshot) : renderJson l snap jsonMax =
      some (l.settings.args.body snap.status l.settings.maxplayers snap.curplayers) ↔
    0x7F ∉ l.settings.typed ∧ l.settings.width snap < jsonMax := by
  rw [body_eq, renderJson_eq, text_width, ← text_eq_iff l snap, and_comm]
  by_cases hwidth : l.settings.width snap < jsonMax
  · rw [if_pos hwidth, Option.some.injEq]
    exact (and_iff_right hwidth).symm
  · rw [if_neg hwidth]
    exact iff_of_false (Option.some_ne_none _).symm fun h => hwidth h.1

/-- Take any five strings that `lobby_start` accepts, any appkey and counts, and either status. C renders
    what Python serialises just when there is no DEL in the strings, and the text is shorter than the
    buffer. -/
theorem rendered_iff {a : Settings} {l : Room} (h : lobbyStart a = .ok l) (snap : Snapshot) :
    renderJson l snap jsonMax =
        some (a.args.body snap.status a.maxplayers snap.curplayers) ↔
      0x7F ∉ a.typed ∧ a.width snap < jsonMax := by
  obtain rfl := lobbyStart_ok h
  exact renderJson_iff l snap

/-- What is set if nothing else is said, but for the game's name. -/
def stock (gameName : CString) : Settings :=
  { serverurl := ⟨literal "TCP://fujinet.online:9600/", by decide +kernel⟩
    clientUrl := ⟨literal "TNFS://apps.irata.online/Atari2600/Games/VideoOlympics.bin",
      by decide +kernel⟩
    appkey := 24, region := ⟨literal "us", by decide +kernel⟩, gameName := gameName
    serverName := ⟨literal "Video Olympics Netplay", by decide +kernel⟩, maxplayers := 2 }

def videoOlympics : CString := ⟨literal "Video Olympics", by decide +kernel⟩

theorem rendered_iff_stock : ∃ l, lobbyStart (stock videoOlympics) = .ok l ∧
    renderJson l ⟨false, 2⟩ jsonMax = some ((stock videoOlympics).args.body .online 2 2) := by
  obtain ⟨l, hl⟩ := (lobbyStart_iff (stock videoOlympics)).mpr (by decide +kernel)
  exact ⟨l, hl, (rendered_iff hl ⟨false, 2⟩).mpr (by decide +kernel)⟩

/-- A game that is called DEL. -/
def del : CString := ⟨[0x7F], by decide⟩

/-- As many control characters as fit an array. -/
def controls : CString := ⟨List.replicate 255 0x01, by decide +kernel⟩

/-- Three strings of control characters. -/
def verbose : Settings := { stock controls with serverName := controls, clientUrl := controls }

/-- DEL is written as it is, and not as a number; and three strings that are accepted can be too much for
    the buffer, so that there is nothing to POST. -/
theorem rendered_otherwise :
    (∃ l out, lobbyStart (stock del) = .ok l ∧ renderJson l ⟨false, 0⟩ jsonMax = some out ∧
      out ≠ (stock del).args.body .online 2 0) ∧
    ∃ l, lobbyStart verbose = .ok l ∧ renderJson l ⟨false, 0⟩ jsonMax = none := by
  constructor
  · obtain ⟨l, hl⟩ := (lobbyStart_iff (stock del)).mpr (by decide +kernel)
    have hsettings := lobbyStart_ok hl
    have hshort : l.settings.width ⟨false, 0⟩ < jsonMax := by
      rw [hsettings]
      decide +kernel
    refine ⟨l, l.text ⟨false, 0⟩ escPiece, hl, ?_, ?_⟩
    · rw [renderJson_eq, text_width, if_pos hshort]
    · intro h
      have hbody := body_eq l ⟨false, 0⟩
      have hdel := (text_eq_iff l ⟨false, 0⟩).mp
      rw [hsettings] at hbody hdel
      exact hdel (h.trans hbody) (List.mem_append_left _ (List.mem_singleton_self _))
  · obtain ⟨l, hl⟩ := (lobbyStart_iff verbose).mpr (by decide +kernel)
    have hlong : ¬ l.settings.width ⟨false, 0⟩ < jsonMax := by
      rw [lobbyStart_ok hl]
      decide +kernel
    exact ⟨l, hl, by rw [renderJson_eq, text_width, if_neg hlong]⟩

/-! ### What the worker POSTs -/

variable {s t u : Lobby} {e : Event} {l : Room}

/-- Whether there is something to POST is up to `render_json`. -/
def Renders (l : Room) (s : Lobby) (e : Event) : Prop :=
  ∀ rendered, e = .lock rendered ∨ e = .wake rendered →
    rendered = (renderJson l ⟨s.offline, s.curplayers⟩ jsonMax).isSome

/-- What is being POSTed has been rendered. -/
def Rendered (l : Room) (s : Lobby) : Prop :=
  ∀ snap, s.worker = .posting snap → (renderJson l snap jsonMax).isSome = true

theorem rendered_scan (dl : ℕ) (rendered : Bool)
    (h : rendered = (renderJson l ⟨s.offline, s.curplayers⟩ jsonMax).isSome) :
    Rendered l (s.scan dl rendered) := by
  rw [Lobby.scan, Lobby.proceed]
  split
  · rintro snap ⟨⟩
  · split
    · rintro snap ⟨⟩
    · split
      · next hrendered =>
        rintro snap ⟨⟩
        exact h.symm.trans hrendered
      · rintro snap ⟨⟩

theorem rendered_broadcast (hs : Rendered l s) : Rendered l s.broadcast := by
  intro snap h
  rw [Lobby.broadcast] at h
  cases hworker : s.worker with
  | posting snap' =>
    rw [hworker] at h
    exact hs snap (hworker.trans h)
  | _ =>
    rw [hworker] at h
    cases h

theorem Does.rendered (h : s.Does e t) (hs : Rendered l s) (he : Renders l s e) : Rendered l t := by
  cases h with
  | late => exact hs
  | update => exact rendered_broadcast hs
  | shutdown => exact rendered_broadcast hs
  | lock rendered => exact rendered_scan _ _ (he rendered (.inl rfl))
  | wake rendered => exact rendered_scan _ _ (he rendered (.inr rfl))
  | post ok =>
    cases ok with
    | true => rintro snap ⟨⟩
    | false => rintro snap ⟨⟩
  | pass => exact hs
  | _ => rintro snap ⟨⟩

/-- In every run, whatever the worker POSTs is shorter than its buffer; a text that is not is never
    POSTed. And what it POSTs is what Python would, if there is no DEL in the strings. -/
theorem posted_rendered {es : List Event} (h : lobby.init s) (hes : lobby.EachStep (Renders l) s es)
    (hrun : lobby.run s es = some u) {snap : Snapshot} (hpost : u.worker = .posting snap) :
    l.settings.width snap < jsonMax ∧ (0x7F ∉ l.settings.typed → renderJson l snap jsonMax =
      some (l.settings.args.body snap.status l.settings.maxplayers snap.curplayers)) := by
  obtain ⟨keepalive, rfl⟩ := h
  have hrendered : Rendered l u := lobby.run_invariant (I := Rendered l)
    (fun s e t hs he hstep => (step_does hstep).rendered hs he) (by rintro snap ⟨⟩) hes hrun
  have hwidth : l.settings.width snap < jsonMax := by
    by_contra hlong
    have hsome := hrendered snap hpost
    rw [renderJson_eq, text_width, if_neg hlong] at hsome
    cases hsome
  exact ⟨hwidth, fun hdel => (renderJson_iff l snap).mpr ⟨hdel, hwidth⟩⟩

end Lobby

end VO.Port
