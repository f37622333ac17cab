import MaiFaSp.DirectoryListing.Server

/-!
# A client and the server

`process_client` of `task6/server/main.c` and `cmd_loop` of `task6/client/main.c` on the two ends of
a connection. Sizes go before texts, in eight bytes from the highest on, and a text goes with its
NUL. However the bytes are buffered and delayed, the client gets one response for each line.
-/

namespace MaiFaSp.DirectoryListing

open Scanning

def htobe64 (n : ℕ) : List UInt8 := (List.range 8).map fun i => UInt8.ofNat (n / 256 ^ (7 - i))

def be64toh (bytes : List UInt8) : ℕ := bytes.foldl (fun n b => 256 * n + b.toNat) 0

/-- The C string at the start of a buffer, if it ends in there. -/
def cString (buf : List UInt8) : Option CString :=
  if 0 ∈ buf then some ⟨buf.takeWhile fun b => b ≠ 0, fun h => by simpa using List.mem_takeWhile_imp h⟩ else none

/-! ### The server -/

/-- Where `process_client` is, with its buffer. `fault`: it reads past the end of a buffer, or writes. -/
inductive Server where
  | awaitsSize (msgBuf : List UInt8)
  | awaitsMessage (msgLen : ℕ) (msgBuf : List UInt8)
  | sendsSize (msg : CString) (msgBuf : List UInt8)
  | sendsText (msg : CString) (msgBuf : List UInt8)
  | ended
  | fault

namespace Server

variable (fs : FileSystem) (alloc : ℕ → Bool)

def onSize (msgBuf bytes : List UInt8) : Server :=
  let msgLen := be64toh bytes
  if msgLen = 0 then .awaitsSize msgBuf
  else if msgBuf.length < msgLen ∧ !alloc msgLen then .ended
  else .awaitsMessage msgLen msgBuf

/-- The message is read over the start of the buffer. -/
def onMessage (msgBuf : List UInt8) : Server :=
  match cString msgBuf with
  | none => .fault
  | some path =>
    match response fs alloc path with
    | .error _ => .fault
    | .ok text =>
      match cString (text ++ [0]) with
      | none => .fault
      | some msg => .sendsSize msg msgBuf

def io : Server → Io UInt8 Server
  | awaitsSize msgBuf => .receive 8 fun bytes => bytes.elim .ended (onSize alloc msgBuf)
  | awaitsMessage msgLen msgBuf => .receive msgLen fun bytes => bytes.elim .ended fun bytes =>
      onMessage fs alloc (bytes ++ msgBuf.drop msgLen)
  | sendsSize msg msgBuf => .send (htobe64 (msg.1.length + 1)) (.sendsText msg msgBuf)
  | sendsText msg msgBuf => .send (msg.1 ++ [0]) (.awaitsSize msgBuf)
  | ended => .halt
  | fault => .halt

end Server

/-! ### The client -/

def MAX_SENDABLE_PATH : ℕ := 16384

/-- Where `cmd_loop` is, with the lines that are left, its buffer and what it has printed. -/
inductive Client where
  | sendsSize (line : CString) (lines : List (List UInt8)) (resBuf printed : List UInt8)
  | sendsLine (line : CString) (lines : List (List UInt8)) (resBuf printed : List UInt8)
  | awaitsSize (lines : List (List UInt8)) (resBuf printed : List UInt8)
  | awaitsText (resLen : ℕ) (lines : List (List UInt8)) (resBuf printed : List UInt8)
  | exited (exitCode : ℕ) (printed : List UInt8)
  | fault

namespace Client

variable (alloc : ℕ → Bool)

/-- What is left of a line of the input as a C string. -/
def lineText (line : List UInt8) : CString :=
  ⟨line.takeWhile fun b => b ≠ 0, fun h => by simpa using List.mem_takeWhile_imp h⟩

/-- The head of the loop. A line that is too long is only warned about. -/
def loop (resBuf printed : List UInt8) : List (List UInt8) → Client
  | [] => .exited 0 printed
  | line :: lines =>
    if MAX_SENDABLE_PATH < (lineText line).1.length + 1 then loop resBuf printed lines
    else .sendsSize (lineText line) lines resBuf printed

def onSize (lines : List (List UInt8)) (resBuf printed bytes : List UInt8) : Client :=
  let resLen := be64toh bytes
  if resBuf.length < resLen ∧ !alloc resLen then .exited 7 printed
  else .awaitsText resLen lines resBuf printed

def onText (lines : List (List UInt8)) (resBuf printed : List UInt8) : Client :=
  match cString resBuf with
  | none => .fault
  | some text => loop resBuf (printed ++ (text.1 ++ [newline])) lines

def io : Client → Io UInt8 Client
  | sendsSize line lines resBuf printed =>
    .send (htobe64 (line.1.length + 1)) (.sendsLine line lines resBuf printed)
  | sendsLine line lines resBuf printed => .send (line.1 ++ [0]) (.awaitsSize lines resBuf printed)
  | awaitsSize lines resBuf printed =>
    .receive 8 fun bytes => bytes.elim (.exited 6 printed) (onSize alloc lines resBuf printed)
  | awaitsText resLen lines resBuf printed => .receive resLen fun bytes =>
      bytes.elim (.exited 6 printed) fun bytes => onText lines (bytes ++ resBuf.drop resLen) printed
  | exited _ _ => .halt
  | fault => .halt

/-- `cmd_loop` on an input. -/
def start (stdin : List UInt8) : Client := loop [] [] (getlines newline stdin)

end Client

/-- What the client is to print for a line. -/
def printedLine (fs : FileSystem) (alloc : ℕ → Bool) (line : List UInt8) : List UInt8 :=
  if MAX_SENDABLE_PATH < (Client.lineText line).1.length + 1 then []
  else
    match response fs alloc (Client.lineText line) with
    | .error _ => []
    | .ok text => text ++ [newline]

section Texts

variable {n : ℕ} {text rest : List UInt8}

theorem length_htobe64 (n : ℕ) : (htobe64 n).length = 8 := by simp [htobe64]

/-- The eight bytes say what was put into them. -/
theorem be64toh_htobe64 (h : n < 2 ^ 64) : be64toh (htobe64 n) = n := by
  have hbytes : htobe64 n = [UInt8.ofNat (n / 256 ^ 7), UInt8.ofNat (n / 256 ^ 6),
      UInt8.ofNat (n / 256 ^ 5), UInt8.ofNat (n / 256 ^ 4), UInt8.ofNat (n / 256 ^ 3),
      UInt8.ofNat (n / 256 ^ 2), UInt8.ofNat (n / 256 ^ 1), UInt8.ofNat (n / 256 ^ 0)] := rfl
  rw [hbytes]
  simp only [be64toh, List.foldl_cons, List.foldl_nil, UInt8.toNat_ofNat']
  omega

theorem cString_of_text (h : 0 ∉ text) : cString (text ++ 0 :: rest) = some ⟨text, h⟩ := by
  have hmem : 0 ∈ text ++ 0 :: rest := by simp
  have hbefore : ∀ b ∈ text, decide (b ≠ 0) = true := by
    intro b hb
    have hne : b ≠ 0 := fun hzero => h (hzero ▸ hb)
    simpa using hne
  have hfront : (text ++ 0 :: rest).takeWhile (fun b => b ≠ 0) = text := by
    rw [List.takeWhile_append_of_pos hbefore]
    simp
  rw [cString, if_pos hmem]
  exact congrArg some (Subtype.ext hfront)

end Texts

/-! ### One line and the whole input -/

section Dialogues

variable {fs : FileSystem} {alloc clientAlloc : ℕ → Bool} {line resBuf msgBuf printed : List UInt8}
  {lines : List (List UInt8)} {msg path : CString}

theorem server_onSize (halloc : ∀ n, n ≤ MAX_SENDABLE_PATH → alloc n = true)
    (hlen : path.1.length + 1 ≤ MAX_SENDABLE_PATH) :
    Server.onSize alloc msgBuf (htobe64 (path.1.length + 1)) = .awaitsMessage (path.1.length + 1) msgBuf := by
  have hmax : MAX_SENDABLE_PATH < 2 ^ 64 := by decide
  unfold Server.onSize
  rw [be64toh_htobe64 (by omega)]
  simp [halloc _ hlen]

theorem server_onMessage (hmsg : response fs alloc path = .ok msg.1) :
    Server.onMessage fs alloc (path.1 ++ [0] ++ msgBuf) = .sendsSize msg (path.1 ++ [0] ++ msgBuf) := by
  unfold Server.onMessage
  rw [List.append_assoc, List.singleton_append, cString_of_text path.2]
  simp only [hmsg, cString_of_text msg.2]

theorem client_onSize (hfits : msg.1.length + 1 < 2 ^ 64) (halloc : clientAlloc (msg.1.length + 1) = true) :
    Client.onSize clientAlloc lines resBuf printed (htobe64 (msg.1.length + 1)) =
      .awaitsText (msg.1.length + 1) lines resBuf printed := by
  unfold Client.onSize
  rw [be64toh_htobe64 hfits]
  simp [halloc]

theorem client_onText : Client.onText lines (msg.1 ++ [0] ++ resBuf) printed =
    Client.loop (msg.1 ++ [0] ++ resBuf) (printed ++ (msg.1 ++ [newline])) lines := by
  unfold Client.onText
  rw [List.append_assoc, List.singleton_append, cString_of_text msg.2]

/-- A path goes to the server and the response comes back. -/
theorem dialogue_line {g : Client} {s : Server} (halloc : ∀ n, n ≤ MAX_SENDABLE_PATH → alloc n = true)
    (hlen : path.1.length + 1 ≤ MAX_SENDABLE_PATH) (hmsg : response fs alloc path = .ok msg.1)
    (hfits : msg.1.length + 1 < 2 ^ 64) (hclient : clientAlloc (msg.1.length + 1) = true)
    (hrest : ∀ resBuf msgBuf, Dialogue (Client.io clientAlloc) (Server.io fs alloc)
      (Client.loop resBuf (printed ++ (msg.1 ++ [newline])) lines) (.awaitsSize msgBuf) g s) :
    Dialogue (Client.io clientAlloc) (Server.io fs alloc) (.sendsSize path lines resBuf printed)
      (.awaitsSize msgBuf) g s := by
  refine .left_speaks rfl (by rw [length_htobe64]; rfl) ?_
  rw [Option.elim_some, server_onSize halloc hlen]
  refine .left_speaks rfl (by rw [List.length_append, List.length_singleton]; rfl) ?_
  rw [Option.elim_some, server_onMessage hmsg]
  refine .right_speaks rfl (by rw [length_htobe64]; rfl) ?_
  rw [Option.elim_some, client_onSize hfits hclient]
  refine .right_speaks rfl (by rw [List.length_append, List.length_singleton]; rfl) ?_
  rw [Option.elim_some, client_onText]
  exact hrest _ _

theorem dialogue_lines (halloc : ∀ n, n ≤ MAX_SENDABLE_PATH → alloc n = true)
    (hbound : ∀ n, alloc n = true → n < 2 ^ 64)
    (hclient : ∀ path msg : CString, response fs alloc path = .ok msg.1 →
      clientAlloc (msg.1.length + 1) = true) (lines : List (List UInt8)) (resBuf msgBuf printed : List UInt8) :
    Dialogue (Client.io clientAlloc) (Server.io fs alloc) (Client.loop resBuf printed lines) (.awaitsSize msgBuf)
      (.exited 0 (printed ++ lines.flatMap (printedLine fs alloc))) .ended := by
  induction lines generalizing resBuf msgBuf printed with
  | nil =>
    rw [List.flatMap_nil, List.append_nil]
    exact .left_hangs_up rfl rfl (by decide) (.refl _ _)
  | cons line lines ih =>
    rw [List.flatMap_cons, ← List.append_assoc]
    by_cases hlong : MAX_SENDABLE_PATH < (Client.lineText line).1.length + 1
    · rw [Client.loop, if_pos hlong, printedLine, if_pos hlong, List.append_nil]
      exact ih resBuf msgBuf printed
    · obtain ⟨msg, hmsg⟩ := exists_response fs alloc (Client.lineText line)
      have hprinted : printedLine fs alloc line = msg.1 ++ [newline] := by
        rw [printedLine, if_neg hlong]
        simp only [hmsg]
      rw [Client.loop, if_neg hlong, hprinted]
      exact dialogue_line halloc (by omega) hmsg (response_size hbound hmsg) (hclient _ msg hmsg)
        fun resBuf msgBuf => ih resBuf msgBuf _

/-- A client sends the lines of its input to the server. Whatever the directories hold, however few
bytes are under way at a time and however the steps of the two fall, both come to the end after the
same number of steps: the client has printed the response to each line that is not too long, in
order, and ends with 0, and the server has seen the end of the connection, with nothing left in it. -/
theorem lines_answered {capacity : ℕ} (hcapacity : 0 < capacity)
    (halloc : ∀ n, n ≤ MAX_SENDABLE_PATH → alloc n = true) (hbound : ∀ n, alloc n = true → n < 2 ^ 64)
    (hclient : ∀ path msg : CString, response fs alloc path = .ok msg.1 →
      clientAlloc (msg.1.length + 1) = true) (stdin : List UInt8) :
    ∃ n, ∀ m c, Takes (Connection.Step (Client.io clientAlloc) (Server.io fs alloc) capacity) m
        (.idle (Client.start stdin) (.awaitsSize [])) c →
      m ≤ n ∧ (Stuck (Connection.Step (Client.io clientAlloc) (Server.io fs alloc) capacity) c →
        m = n ∧ c = .idle (.exited 0 ((getlines newline stdin).flatMap (printedLine fs alloc))) .ended) :=
  (dialogue_lines halloc hbound hclient (getlines newline stdin) [] [] []).all_runs hcapacity rfl rfl

end Dialogues

/-- A root with one entry `a`. -/
def rootOnly : FileSystem where
  realpath path := if path.1 = [slash] then some path else none
  isDir _ := true
  entries _ := some [⟨ascii "a", by decide⟩]

def anySize (n : ℕ) : Bool := n < 2 ^ 64

theorem lines_answered_root : ∃ n, ∀ m c,
    Takes (Connection.Step (Client.io anySize) (Server.io rootOnly anySize) 1) m
      (.idle (Client.start (ascii "/\nb\n")) (.awaitsSize [])) c →
    m ≤ n ∧ (Stuck (Connection.Step (Client.io anySize) (Server.io rootOnly anySize) 1) c →
      m = n ∧ c = .idle (.exited 0 (ascii "/a\n\nno such path exists\n")) .ended) := by
  have hbound : ∀ n, anySize n = true → n < 2 ^ 64 := fun n h => by simpa [anySize] using h
  have halloc : ∀ n, n ≤ MAX_SENDABLE_PATH → anySize n = true := by
    intro n hn
    have hmax : MAX_SENDABLE_PATH < 2 ^ 64 := by decide
    exact decide_eq_true (by omega)
  have hprinted : (getlines newline (ascii "/\nb\n")).flatMap (printedLine rootOnly anySize) =
      ascii "/a\n\nno such path exists\n" := by
    decide +kernel
  have hclient : ∀ path msg : CString, response rootOnly anySize path = .ok msg.1 →
      anySize (msg.1.length + 1) = true :=
    fun path msg hmsg => decide_eq_true (response_size hbound hmsg)
  rw [← hprinted]
  exact lines_answered Nat.one_pos halloc hbound hclient (ascii "/\nb\n")

end MaiFaSp.DirectoryListing
