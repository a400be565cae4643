/-
The message to a handler (`request.c`).

* `headersText` — the JSON text that `Request_to_payload` builds;
* `payload` — `Request_to_payload`;
* `frame` — the documented format, `UUID ID PATH SIZE:HEADERS,SIZE:BODY,`;
* `Delivery.parse` — its decoder, as `Request.parse` of the Python library;
* `parse_payload_iff` — the decoder gives back what was encoded exactly if an `int`
  can count the message.

Design notes: `%s` stops at a zero.  The texts of a header are formatted without
regard to the limits of an `int`, which the buffer they come from keeps; the body has
no such bound, and what its length goes through is explicit.  Allocation succeeds.
The dictionary is given by its nodes in order.
-/
import Mongrel2.Dir
import Mongrel2.Netstring
import Mongrel2.RequestWords

namespace Mongrel2

open ByteStream HttpParser

/-! ### Strings -/

/-- A `size_t` that is passed as an `int`. -/
def intOf (n : ℕ) : ℤ := Int.bmod n (2 ^ 32)

/-- `bcatblk`: nothing is appended if the length is negative or the sum is none for an
allocation. -/
def bcatblk (b s : List Byte) (len : ℤ) : List Byte :=
  if len < 0 ∨ (2 : ℤ) ^ 31 - 2 < b.length + len then b else b ++ s.take len.toNat

/-- `bconchar`. -/
def bconchar (b : List Byte) (c : Byte) : List Byte :=
  if (2 : ℤ) ^ 31 - 3 < b.length then b else b ++ [c]

/-- What `%s` prints of a string. -/
def printed (b : Option (List Byte)) : List Byte :=
  match b with
  | some b => cstr b
  | none => bytes "(null)"

/-- `bfindreplace` of one character. -/
def findReplace (c : Byte) (repl b : List Byte) : List Byte :=
  b.flatMap fun x => if x = c then repl else [x]

/-! ### The dictionary of headers -/

/-- `bstricmp` answers less than 0, for names without a zero. -/
def caselessLt (a b : List Byte) : Bool := decide (a.map downcase < b.map downcase)

/-- `dict_insert` where duplicates are allowed, on the nodes in order. -/
def dictInsert (h : List Byte × List Byte) :
    List (List Byte × List Byte) → List (List Byte × List Byte)
  | [] => [h]
  | n :: nodes => if caselessLt h.1 n.1 then h :: n :: nodes else n :: dictInsert h nodes

/-- The nodes of the dictionary from `dict_first` on. -/
def Request.nodes (r : Request) : List (List Byte × List Byte) :=
  r.headers.foldl (fun nodes h => dictInsert h nodes) []

/-! ### The encoder -/

/-- `B`, for a value that is there. -/
def member (key value : List Byte) : List Byte :=
  bytes ",\"" ++ cstr key ++ bytes "\":\"" ++ cstr value ++ bytes "\""

/-- The replacements that a header's value goes through, in their order. -/
def escape (value : List Byte) : List Byte :=
  findReplace (chr '"') (bytes "\\\"") (findReplace (chr '\\') (bytes "\\\\") value)

/-- The members behind `PATH` that are not headers. -/
def Request.parts (r : Request) (pattern : Option (List Byte)) :
    List (List Byte × List Byte) :=
  [(bytes "METHOD", if r.parser.jsonSent then some (bytes "JSON") else r.requestMethod),
    (bytes "VERSION", r.version), (bytes "URI", r.uri), (bytes "QUERY", r.queryString),
    (bytes "FRAGMENT", r.fragment), (bytes "PATTERN", pattern)].filterMap
      fun p => p.2.map (p.1, ·)

/-- The `headers` of `Request_to_payload`. -/
def headersText (r : Request) (pattern : Option (List Byte)) : List Byte :=
  bytes "\x7b\"" ++ bytes "PATH" ++ bytes "\":\"" ++ printed r.path ++ bytes "\"" ++
    (r.parts pattern).flatMap (fun p => member p.1 p.2) ++
    r.nodes.flatMap (fun h => member h.1 (escape h.2)) ++ bytes "\x7d"

/-- `Request_to_payload`; `id` is what `Register_id_for_fd` answers. -/
def payload (r : Request) (pattern : Option (List Byte)) (uuid : List Byte) (id : ℤ)
    (buf : List Byte) : Option (List Byte) :=
  if id = -1 then none
  else
    let headers := headersText r pattern
    let result := cstr uuid ++ bytes " " ++ Decimal.writeInt id ++ bytes " " ++ printed r.path ++
      bytes " " ++ Decimal.write headers.length ++ bytes ":" ++ cstr headers ++ bytes "," ++
      Decimal.writeInt (intOf buf.length) ++ bytes ":"
    let result := bcatblk result buf (intOf buf.length)
    some (bconchar result (chr ','))

/-! ### The decoder -/

/-- `Request` of the Python library. -/
structure Delivery where
  sender : List Byte
  connId : ℤ
  path : List Byte
  headers : List Byte
  body : List Byte
  deriving DecidableEq

/-- `Request.parse`, with what it leaves behind the body. -/
def Delivery.parse (msg : List Byte) : Option (Delivery × List Byte) := do
  let (sender, rest) ← Bytes.cut (chr ' ') msg
  let (connId, rest) ← Bytes.cut (chr ' ') rest
  let (path, rest) ← Bytes.cut (chr ' ') rest
  let (headers, rest) ← Netstring.read rest
  let (body, rest) ← Netstring.read rest
  let connId ← Decimal.readInt connId
  some (⟨sender, connId, path, headers, body⟩, rest)

/-- `UUID ID PATH SIZE:HEADERS,SIZE:BODY,`. -/
def frame (m : Delivery) : List Byte :=
  m.sender ++ chr ' ' :: (Decimal.writeInt m.connId ++ chr ' ' :: (m.path ++ chr ' ' ::
    (Netstring.write m.headers ++ Netstring.write m.body)))

/-! ### What is encoded -/

theorem cstr_eq_self {xs : List Byte} (h : 0 ∉ xs) : cstr xs = xs :=
  List.takeWhile_eq_self_iff.mpr fun _ hc => decide_eq_true fun heq => h (heq ▸ hc)

theorem zero_not_mem_member (key value : List Byte) : 0 ∉ member key value := by
  simp only [member, List.mem_append, not_or]
  exact ⟨⟨⟨⟨by decide, zero_not_mem_cstr key⟩, by decide⟩, zero_not_mem_cstr value⟩, by decide⟩

theorem zero_not_mem_headersText (r : Request) (pattern : Option (List Byte)) :
    0 ∉ headersText r pattern := by
  have hpath : 0 ∉ printed r.path := by
    unfold printed
    split
    · exact zero_not_mem_cstr _
    · decide
  have hflat : ∀ {α : Type} (xs : List α) (f : α → List Byte), (∀ x ∈ xs, 0 ∉ f x) →
      0 ∉ xs.flatMap f := by
    intro α xs f hf hmem
    obtain ⟨x, hx, hx'⟩ := List.mem_flatMap.mp hmem
    exact hf x hx hx'
  simp only [headersText, List.mem_append, not_or]
  exact ⟨⟨⟨⟨⟨⟨⟨by decide, by decide⟩, by decide⟩, hpath⟩, by decide⟩,
    hflat _ _ fun _ _ => zero_not_mem_member _ _⟩, hflat _ _ fun _ _ => zero_not_mem_member _ _⟩,
    by decide⟩

/-- A path that was parsed has no zero and no space. -/
theorem not_mem_path {r : Request} {h p : List Byte} (hpath : (r.parse h).1.path = some p) {c : Byte}
    (hc : isTarget c = false) : c ∉ p := by
  intro hmem
  have ht := (Request.worded_parse r h).path p hpath c hmem
  exact absurd (hc.symm.trans ht) (by simp)

/-- The message up to the text of the body's size. -/
def head (uuid : List Byte) (id : ℤ) (path headers size : List Byte) : List Byte :=
  uuid ++ chr ' ' :: (Decimal.writeInt id ++ chr ' ' :: (path ++ chr ' ' ::
    (Netstring.write headers ++ (size ++ [chr ':']))))

theorem head_eq {r : Request} {p uuid : List Byte} (id : ℤ) (pattern : Option (List Byte))
    (size : List Byte) (hpath : r.path = some p) (hp : 0 ∉ p) (huuid : 0 ∉ uuid) :
    cstr uuid ++ bytes " " ++ Decimal.writeInt id ++ bytes " " ++ printed r.path ++
      bytes " " ++ Decimal.write (headersText r pattern).length ++ bytes ":" ++
      cstr (headersText r pattern) ++ bytes "," ++ size ++ bytes ":" =
        head uuid id p (headersText r pattern) size := by
  have hspace : bytes " " = [chr ' '] := rfl
  have hcolon : bytes ":" = [58] := rfl
  have hcomma : bytes "," = [44] := rfl
  have hchr : chr ':' = 58 := rfl
  rw [cstr_eq_self huuid, cstr_eq_self (zero_not_mem_headersText r pattern), hpath, printed,
    cstr_eq_self hp, hspace, hcolon, hcomma]
  simp only [head, Netstring.write, List.append_assoc, List.cons_append, List.nil_append, hchr]

theorem payload_eq {r : Request} {p uuid : List Byte} {id : ℤ} (pattern : Option (List Byte))
    (buf : List Byte) (hpath : r.path = some p) (hp : 0 ∉ p) (huuid : 0 ∉ uuid) (hid : id ≠ -1) :
    payload r pattern uuid id buf =
      some (bconchar (bcatblk (head uuid id p (headersText r pattern)
        (Decimal.writeInt (intOf buf.length))) buf (intOf buf.length)) (chr ',')) := by
  simp only [payload, if_neg hid, head_eq id pattern _ hpath hp huuid]

/-- The decoder on what stands before the body. -/
theorem parse_head {uuid path : List Byte} (huuid : chr ' ' ∉ uuid) (hpath : chr ' ' ∉ path) (id : ℤ)
    (headers size rest : List Byte) :
    Delivery.parse (head uuid id path headers size ++ rest) =
      (Netstring.read (size ++ chr ':' :: rest)).map
        fun x => (⟨uuid, id, path, headers, x.1⟩, x.2) := by
  have hid : chr ' ' ∉ Decimal.writeInt id := Decimal.not_mem_writeInt (by decide) (by decide)
  have hassoc : head uuid id path headers size ++ rest = uuid ++ chr ' ' ::
      (Decimal.writeInt id ++ chr ' ' :: (path ++ chr ' ' ::
        (Netstring.write headers ++ (size ++ chr ':' :: rest)))) := by
    simp [head]
  rw [hassoc]
  simp only [Delivery.parse, Bytes.cut_append huuid, Bytes.cut_append hid, Bytes.cut_append hpath,
    Netstring.read_write_append, Decimal.readInt_writeInt, Option.bind_eq_bind, Option.bind_some]
  cases Netstring.read (size ++ chr ':' :: rest) <;> rfl

/-- What `bcatblk` appends. -/
def appended (b s : List Byte) (len : ℤ) : List Byte :=
  if len < 0 ∨ (2 : ℤ) ^ 31 - 2 < b.length + len then [] else s.take len.toNat

theorem bcatblk_eq (b s : List Byte) (len : ℤ) : bcatblk b s len = b ++ appended b s len := by
  unfold bcatblk appended
  split
  · exact (List.append_nil b).symm
  · rfl

/-- What `bconchar` appends. -/
def closing (b : List Byte) (c : Byte) : List Byte :=
  if (2 : ℤ) ^ 31 - 3 < b.length then [] else [c]

theorem bconchar_eq (b : List Byte) (c : Byte) : bconchar b c = b ++ closing b c := by
  unfold bconchar closing
  split
  · exact (List.append_nil b).symm
  · rfl

theorem intOf_of_lt {n : ℕ} (h : n < 2 ^ 31) : intOf n = n := by
  exact Int.bmod_eq_of_le_mul_two (by omega) (by omega)

section

variable {hd body : List Byte}

/-- **A body that fits** is appended whole, and the comma as well. -/
theorem tail_of_fits (h : hd.length + body.length + 1 < 2 ^ 31 - 1) :
    bconchar (bcatblk hd body body.length) (chr ',') = hd ++ (body ++ [chr ',']) := by
  have happended : appended hd body body.length = body := by
    rw [appended, if_neg (by omega), Int.toNat_natCast, List.take_length]
  have hclosing : closing (hd ++ body) (chr ',') = [chr ','] := by
    rw [closing, if_neg (by rw [List.length_append]; omega)]
  rw [bconchar_eq, bcatblk_eq, happended, hclosing, List.append_assoc]

/-- If as many bytes as the body has, and one more, were appended, then it fits. -/
theorem fits_of_tail {n : ℕ} (hn : body.length = n)
    (hsum : (appended hd body n ++ closing (hd ++ appended hd body n) (chr ',')).length = n + 1) :
    hd.length + body.length + 1 < 2 ^ 31 - 1 := by
  rw [List.length_append] at hsum
  by_cases hroom : (n : ℤ) < 0 ∨ (2 : ℤ) ^ 31 - 2 < hd.length + n
  · -- nothing was appended, so there was no room for the comma either
    have happended : appended hd body n = [] := if_pos hroom
    rw [happended, List.append_nil] at hsum
    unfold closing at hsum
    split at hsum
    · exact absurd hsum (by simp)
    · simp at hsum
      omega
  · have happended : appended hd body n = body := by
      rw [appended, if_neg hroom, Int.toNat_natCast, ← hn, List.take_length]
    rw [happended] at hsum
    unfold closing at hsum
    split at hsum
    · simp at hsum
      omega
    case isFalse hcomma =>
      rw [List.length_append] at hcomma
      omega

end

/-! ### The round trip -/

theorem length_frame (m : Delivery) :
    (frame m).length =
      (head m.sender m.connId m.path m.headers (Decimal.write m.body.length)).length +
        m.body.length + 1 := by
  simp only [frame, head, Netstring.write, List.length_append, List.length_cons, List.length_nil]
  omega

section

variable {r : Request} {p uuid body : List Byte} {id : ℤ} {pattern : Option (List Byte)}

/-- A message that an `int` counts is encoded as documented. -/
theorem payload_of_fits (hpath : r.path = some p) (hp : 0 ∉ p) (huuid : 0 ∉ uuid) (hid : id ≠ -1)
    (hfits : (frame ⟨uuid, id, p, headersText r pattern, body⟩).length < 2 ^ 31 - 1) :
    payload r pattern uuid id body = some (frame ⟨uuid, id, p, headersText r pattern, body⟩) := by
  rw [length_frame] at hfits
  have hint : intOf body.length = body.length := intOf_of_lt (by dsimp only at hfits; omega)
  have hwrite : Decimal.writeInt (body.length : ℤ) = Decimal.write body.length := rfl
  rw [payload_eq pattern body hpath hp huuid hid, hint, hwrite, tail_of_fits hfits]
  simp only [frame, head, Netstring.write, List.append_assoc, List.cons_append, List.nil_append]
  rfl

theorem parse_frame {m : Delivery} (hsender : chr ' ' ∉ m.sender) (hpath : chr ' ' ∉ m.path) :
    Delivery.parse (frame m) = some (m, []) := by
  have hframe : frame m = head m.sender m.connId m.path m.headers (Decimal.write m.body.length) ++
      (m.body ++ [44]) := by
    simp [frame, head, Netstring.write]
    rfl
  have hbody : Decimal.write m.body.length ++ chr ':' :: (m.body ++ [44]) =
      Netstring.write m.body ++ [] := by
    rw [List.append_nil]
    rfl
  rw [hframe, parse_head hsender hpath, hbody, Netstring.read_write_append]
  rfl

/-- A message from which the decoder gets the whole body, and nothing more, is one that an
`int` counts. -/
theorem fits_of_parse_payload (hpath : r.path = some p) (hp : 0 ∉ p) (hpspace : chr ' ' ∉ p)
    (huuid : 0 ∉ uuid) (huspace : chr ' ' ∉ uuid) (hid : id ≠ -1) {m : Delivery}
    (h : (payload r pattern uuid id body).bind Delivery.parse = some (m, []))
    (hbody : m.body = body) :
    (frame ⟨uuid, id, p, headersText r pattern, body⟩).length < 2 ^ 31 - 1 := by
  rw [payload_eq pattern body hpath hp huuid hid, Option.bind_some, bconchar_eq, bcatblk_eq,
    List.append_assoc, parse_head huspace hpspace, Option.map_eq_some_iff] at h
  obtain ⟨⟨data, rest⟩, hread, hm⟩ := h
  obtain ⟨rfl, rfl⟩ := Prod.mk.inj hm
  obtain rfl : data = body := hbody
  generalize intOf data.length = size at hread
  have hchr : chr ':' = 58 := rfl
  have hcolon : 58 ∉ Decimal.writeInt size := Decimal.not_mem_writeInt (by decide) (by decide)
  rw [hchr] at hread
  rcases lt_or_ge size 0 with hneg | hpos
  · -- the size is printed with a sign
    rw [Netstring.read_of_not_size hcolon (Decimal.read_writeInt_of_neg hneg)] at hread
    exact absurd hread nofun
  · obtain ⟨n, rfl⟩ := Int.eq_ofNat_of_zero_le hpos
    obtain ⟨hlen, hrest⟩ := Netstring.length_of_read hcolon (Decimal.read_write n) hread
    have hwrite : Decimal.writeInt (n : ℤ) = Decimal.write data.length := by
      rw [hlen]
      rfl
    rw [hwrite] at hrest
    rw [length_frame]
    dsimp only
    exact fits_of_tail hlen hrest

end

/-- **The payload round trip**: from the message for a request whose path was parsed the
documented decoder gets back the sender, the id, the path, the headers and the body, with
nothing left over, exactly if the message in the documented format is shorter than what
an `int` counts. -/
theorem parse_payload_iff {r₀ : Request} {h p uuid : List Byte} {id : ℤ}
    (extra : List (List Byte × List Byte)) (pattern : Option (List Byte)) (body : List Byte)
    (hpath : (r₀.parse h).1.path = some p) (huuid : ∀ c ∈ uuid, c ≠ 0 ∧ c ≠ chr ' ')
    (hid : id ≠ -1) :
    let r := { (r₀.parse h).1 with headers := (r₀.parse h).1.headers ++ extra }
    let m : Delivery := ⟨uuid, id, p, headersText r pattern, body⟩
    (payload r pattern uuid id body).bind Delivery.parse = some (m, []) ↔
      (frame m).length < 2 ^ 31 - 1 := by
  intro r m
  have hp : ∀ c, isTarget c = false → c ∉ p := fun c => not_mem_path hpath
  have hr : r.path = some p := hpath
  have hzero : 0 ∉ uuid := fun hc => (huuid 0 hc).1 rfl
  have hspace : chr ' ' ∉ uuid := fun hc => (huuid _ hc).2 rfl
  constructor
  · intro hparse
    exact fits_of_parse_payload hr (hp 0 rfl) (hp _ rfl) hzero hspace hid hparse rfl
  · intro hfits
    rw [payload_of_fits hr (hp 0 rfl) hzero hid hfits, Option.bind_some]
    exact parse_frame hspace (hp _ rfl)

/-- A body that holds the delimiters of the format. -/
theorem parse_payload_delimiters :
    (payload { (Request.create.parse (bytes "GET /a HTTP/1.1\r\n\r\n")).1 with
        headers := (Request.create.parse (bytes "GET /a HTTP/1.1\r\n\r\n")).1.headers ++ [] }
      none (bytes "u-1") 7 [0, 44, 58, 49]).bind Delivery.parse =
        some (⟨bytes "u-1", 7, bytes "/a",
          headersText { (Request.create.parse (bytes "GET /a HTTP/1.1\r\n\r\n")).1 with
            headers := (Request.create.parse (bytes "GET /a HTTP/1.1\r\n\r\n")).1.headers ++ [] } none,
          [0, 44, 58, 49]⟩, []) :=
  (parse_payload_iff [] none [0, 44, 58, 49] (by decide) (List.all_iff_forall_prop.mp (by decide))
    (by decide)).mpr (by decide)

/-- The header of a request with a body of 2147483580 bytes. -/
def largeRequest : Request :=
  (Request.create.parse (bytes "PUT / HTTP/1.1\r\nContent-Length: 2147483580\r\n\r\n")).1

/-- The `int` that counts the request does not count the message. -/
theorem not_parse_payload_large :
    (payload largeRequest none (bytes "u") 1 (List.replicate 2147483580 0)).bind Delivery.parse ≠
      some (⟨bytes "u", 1, bytes "/", headersText largeRequest none,
        List.replicate 2147483580 0⟩, []) := by
  intro h
  have hfits := fits_of_parse_payload (p := bytes "/") (by decide) (by decide) (by decide)
    (by decide) (by decide) (by decide) h rfl
  have hheaders : 66 ≤ (headersText largeRequest none).length := by decide
  rw [length_frame] at hfits
  simp only [head, Netstring.write, List.length_append, List.length_cons, List.length_replicate]
    at hfits
  omega

end Mongrel2
