import SystemsLabs.ProxyCacheProofs

/-! # Rewriting the request: `forward_headers` of `proxy.c`

    `forward_headers` sends the server a `GET` line for the parsed path, every
    client header except `Connection`, `Proxy-Connection`, `User-Agent` and
    `Host`, and then its own four headers: `Host` (the last `Host` header the
    client sent, else the host of the request line), the fixed `User-Agent`,
    and `close` for both connection headers. Each line it formats goes through
    `snprintf` into the `MAXLINE` buffer `header_buf`, and `strlen` of the
    buffer is what `rio_writen` sends.

    * **`headerStep`**, **`forwardHeaders`** — the header loop and the whole
      function, with `strncmp(.., MAXLINE)` and `snprintf` as the source
      calls them, and the bytes written to the server as the result;
    * **`intendedHeaders`**, **`render`** — what the function is for: the
      request the proxy means to send, as a list of headers;
    * **`foldl_headerStep`** — the run lemma of the loop: the forwarded lines
      in order, and the host the last `Host` header leaves;
    * **`forwardHeaders_eq_render_iff`** — the bytes sent are that request
      exactly when every formatted line is shorter than `MAXLINE`; a longer
      line is cut by `snprintf`, and loses its `\r\n`.

    Header names are compared as the source compares them, case-sensitively:
    a client's `host:` header is forwarded, next to the proxy's `Host:`.
    Strings are NUL-free, as the parser's are. -/

namespace ProxyHeaders

open ProxyCache

/-- `header_user_agent`. -/
def headerUserAgent : List Char :=
  "Mozilla/5.0 (X11; Linux x86_64; rv:3.10.0) Gecko/20191101 Firefox/63.0.1".toList

/-- `strncmp(a, b, MAXLINE) == 0`. -/
def strEq (a b : List Char) : Bool := decide (a.take maxline = b.take maxline)

/-- The bytes `rio_writen(fd, header_buf, strlen(header_buf))` sends after
    `snprintf(header_buf, MAXLINE, ..)` formatted `s`: at most `MAXLINE - 1`. -/
def snprintfLine (s : List Char) : List Char := s.take (maxline - 1)

/-- A `header_t` of the parser: its `name` and `value`. -/
structure Header where
  name : List Char
  value : List Char
  deriving DecidableEq, Repr

/-- The format `"%s: %s\r\n"` applied to a header. -/
def headerLine (h : Header) : List Char := h.name ++ ": ".toList ++ h.value ++ "\r\n".toList

/-- The loop's `replace`: the four headers the proxy writes itself. -/
def replaced (name : List Char) : Bool :=
  strEq name "Connection".toList || strEq name "Proxy-Connection".toList ||
    strEq name "User-Agent".toList || strEq name "Host".toList

/-- One turn of the loop over `parser_retrieve_next_header`: the bytes sent
    so far, and `host`. -/
def headerStep (st : List Char × List Char) (h : Header) : List Char × List Char :=
  if !replaced h.name then (st.1 ++ snprintfLine (headerLine h), st.2)
  else if strEq h.name "Host".toList then (st.1, h.value)
  else st

/-- `forward_headers(parser, fd)` on a parser holding `serverPath`, `host`
    and `headers`: the bytes it writes to `fd`. -/
def forwardHeaders (serverPath host : List Char) (headers : List Header) : List Char :=
  let st := headers.foldl headerStep ([], host)
  snprintfLine ("GET ".toList ++ serverPath ++ " HTTP/1.0\r\n".toList) ++ st.1 ++
    snprintfLine ("Host: ".toList ++ st.2 ++ "\r\n".toList) ++
    snprintfLine ("User-Agent: ".toList ++ headerUserAgent ++ "\r\n".toList) ++
    "Connection: close\r\n".toList ++ "Proxy-Connection: close\r\n".toList ++ "\r\n".toList

/-! ## The request the proxy means to send -/

/-- A header the loop takes as the new `host`. -/
def isHost (h : Header) : Bool := strEq h.name "Host".toList

/-- The host of the forwarded request: the last `Host` header's value, else
    the host of the request line. -/
def lastHost (host : List Char) (hs : List Header) : List Char :=
  match (hs.filter isHost).getLast? with
  | some h => h.value
  | none => host

/-- The client headers passed on unchanged, in their order. -/
def forwarded (hs : List Header) : List Header := hs.filter fun h => !replaced h.name

/-- The headers of the forwarded request. -/
def intendedHeaders (host : List Char) (hs : List Header) : List Header :=
  forwarded hs ++ [⟨"Host".toList, lastHost host hs⟩, ⟨"User-Agent".toList, headerUserAgent⟩,
    ⟨"Connection".toList, "close".toList⟩, ⟨"Proxy-Connection".toList, "close".toList⟩]

/-- An HTTP/1.0 `GET` request for `serverPath` with the headers `hs`. -/
def render (serverPath : List Char) (hs : List Header) : List Char :=
  "GET ".toList ++ serverPath ++ " HTTP/1.0\r\n".toList ++ (hs.map headerLine).flatten ++
    "\r\n".toList

/-- The lines `forward_headers` formats with `snprintf`, in the order it sends them. -/
def requestLines (serverPath host : List Char) (hs : List Header) : List (List Char) :=
  ("GET ".toList ++ serverPath ++ " HTTP/1.0\r\n".toList) :: ((forwarded hs).map headerLine ++
    [headerLine ⟨"Host".toList, lastHost host hs⟩, headerLine ⟨"User-Agent".toList, headerUserAgent⟩])

/-- The three constant lines that end the request. -/
def closeLines : List Char :=
  "Connection: close\r\n".toList ++ "Proxy-Connection: close\r\n".toList ++ "\r\n".toList

/-! ## The header loop -/

theorem isHost_replaced {h : Header} (hh : isHost h = true) : replaced h.name = true := by
  unfold isHost at hh; simp only [replaced, hh, Bool.or_true]

/-- Reading one more header moves the fallback host to it when it is a `Host` header. -/
theorem lastHost_cons (host : List Char) (h : Header) (hs : List Header) :
    lastHost host (h :: hs) = lastHost (if isHost h then h.value else host) hs := by
  unfold lastHost
  cases hh : isHost h
  · simp [List.filter_cons, hh]
  · simp only [List.filter_cons, hh, if_true, List.getLast?_cons]
    cases (hs.filter isHost).getLast? <;> rfl

theorem headerStep_of_replaced {h : Header} (hr : replaced h.name = true) (out host : List Char) :
    headerStep (out, host) h = (out, if isHost h then h.value else host) := by
  simp only [headerStep, hr, Bool.not_true, Bool.false_eq_true, if_false, isHost]
  exact (apply_ite (Prod.mk out) _ _ _).symm

theorem headerStep_of_forwarded {h : Header} (hr : replaced h.name = false) (out host : List Char) :
    headerStep (out, host) h = (out ++ snprintfLine (headerLine h), host) := by
  simp only [headerStep, hr, Bool.not_false, if_true]

/-- The run lemma of the loop: it sends the forwarded headers in order, each
    cut by `snprintf`, and leaves the last `Host` header's value in `host`. -/
theorem foldl_headerStep (hs : List Header) (out host : List Char) :
    hs.foldl headerStep (out, host) =
      (out ++ ((forwarded hs).map (snprintfLine ∘ headerLine)).flatten, lastHost host hs) := by
  induction hs generalizing out host with
  | nil => simp [forwarded, lastHost]
  | cons h hs ih =>
    rw [List.foldl_cons, lastHost_cons]
    cases hr : replaced h.name
    · have hh : isHost h = false := by
        cases hh : isHost h
        · rfl
        · exact absurd (isHost_replaced hh) (by rw [hr]; decide)
      rw [headerStep_of_forwarded hr, ih, hh]; simp [forwarded, List.filter_cons, hr]
    · rw [headerStep_of_replaced hr, ih]; simp [forwarded, List.filter_cons, hr]

/-! ## Cut lines -/

theorem length_flatten_map_take_le {α : Type} (L : List (List α)) (K : Nat) :
    ((L.map (·.take K)).flatten).length ≤ L.flatten.length := by
  induction L with
  | nil => exact Nat.le_refl _
  | cons x L ih =>
    simp only [List.map_cons, List.flatten_cons, List.length_append]
    exact Nat.add_le_add (List.length_take_le' _ _) ih

/-- Cutting every piece at `K` leaves the concatenation unchanged exactly
    when no piece is longer than `K`. -/
theorem flatten_map_take_eq_iff {α : Type} (L : List (List α)) (K : Nat) :
    (L.map (·.take K)).flatten = L.flatten ↔ ∀ x ∈ L, x.length ≤ K := by
  induction L with
  | nil => simp
  | cons x L ih =>
    simp only [List.map_cons, List.flatten_cons, List.mem_cons, forall_eq_or_imp]
    constructor
    · intro h
      have hlen := congrArg List.length h
      have hle := length_flatten_map_take_le L K
      simp only [List.length_append, List.length_take] at hlen
      have hx : x.length ≤ K := by omega
      rw [List.take_of_length_le hx] at h
      exact ⟨hx, ih.mp (List.append_cancel_left h)⟩
    · rintro ⟨hx, hL⟩
      rw [List.take_of_length_le hx, ih.mpr hL]

/-! ## The request sent -/

theorem forwardHeaders_eq (p host : List Char) (hs : List Header) :
    forwardHeaders p host hs = ((requestLines p host hs).map snprintfLine).flatten ++ closeLines := by
  simp only [forwardHeaders, foldl_headerStep, requestLines, closeLines, List.map_cons,
    List.map_append, List.map_map, List.flatten_cons, List.flatten_append, List.map_nil,
    List.flatten_nil, List.nil_append, List.append_nil, List.append_assoc]
  rfl

theorem render_intendedHeaders (p host : List Char) (hs : List Header) :
    render p (intendedHeaders host hs) = (requestLines p host hs).flatten ++ closeLines := by
  simp only [render, intendedHeaders, requestLines, closeLines, List.map_cons, List.map_append,
    List.flatten_cons, List.flatten_append, List.map_nil, List.flatten_nil, List.append_nil,
    List.append_assoc]
  rfl

/-- `forward_headers` sends the intended request exactly when each line it
    formats is shorter than `MAXLINE`. -/
theorem forwardHeaders_eq_render_iff (p host : List Char) (hs : List Header) :
    forwardHeaders p host hs = render p (intendedHeaders host hs) ↔
      ∀ x ∈ requestLines p host hs, x.length < maxline := by
  rw [forwardHeaders_eq, render_intendedHeaders, List.append_left_inj]
  exact (flatten_map_take_eq_iff _ _).trans (forall₂_congr fun _ _ => by simp only [maxline]; omega)

example : forwardHeaders "/".toList "a".toList [⟨"host".toList, "b".toList⟩] =
    "GET / HTTP/1.0\r\nhost: b\r\nHost: a\r\nUser-Agent: ".toList ++ headerUserAgent ++
      "\r\nConnection: close\r\nProxy-Connection: close\r\n\r\n".toList := by
  decide

end ProxyHeaders
