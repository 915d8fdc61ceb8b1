import TeamsInC.Client.Frames

/-!
# What is typed, and the packet made of it

A recipient's name is typed on a line, then the message on the next, which a newline or the
end of the input ends.
-/

set_option autoImplicit false

namespace TeamsInC
namespace Client
open Bytes

def lineEnd : Option (List UInt8) → List UInt8
  | none => []
  | some more => newline :: more

/-- The input of one message: a word, whatever else is on its line, and the message's line. -/
structure Typed (stdin : List UInt8) (name : CString) (line : List UInt8)
    (after : Option (List UInt8)) : Prop where
  input : ∃ blank rest, stdin = blank ++ (name.bytes ++ (rest ++ newline :: (line ++ lineEnd after))) ∧
    (∀ c ∈ blank, isSpace c) ∧ (∀ c ∈ rest.head?, isSpace c) ∧ newline ∉ rest
  some_name : name.bytes ≠ []
  one_word : ∀ c ∈ name.bytes, isSpace c = false
  one_line : newline ∉ line

section
variable {p : UInt8 → Bool} {a b : List UInt8}

theorem takeWhile_stops (ha : ∀ c ∈ a, p c) (hb : ∀ c ∈ b.head?, ¬ p c) :
    (a ++ b).takeWhile p = a := by
  rw [List.takeWhile_append_of_pos ha]
  cases b with
  | nil => simp
  | cons c b => rw [List.takeWhile_cons_of_neg (hb c rfl), List.append_nil]

theorem dropWhile_stops (ha : ∀ c ∈ a, p c) (hb : ∀ c ∈ b.head?, ¬ p c) :
    (a ++ b).dropWhile p = b := by
  rw [List.dropWhile_append_of_pos ha]
  cases b with
  | nil => rfl
  | cons c b => exact List.dropWhile_cons_of_neg (hb c rfl)

end

theorem ne_newline {line : List UInt8} (h : newline ∉ line) :
    ∀ c ∈ line, decide (c ≠ newline) = true := by
  intro c hc
  have hne : c ≠ newline := fun he => h (he ▸ hc)
  exact decide_eq_true hne

theorem scanWord_word {blank word rest : List UInt8} (hblank : ∀ c ∈ blank, isSpace c)
    (hne : word ≠ []) (hword : ∀ c ∈ word, isSpace c = false) (hrest : ∀ c ∈ rest.head?, isSpace c) :
    scanWord (blank ++ (word ++ rest)) = (some word, rest) := by
  have hskip : (blank ++ (word ++ rest)).dropWhile isSpace = word ++ rest := by
    refine dropWhile_stops hblank ?_
    obtain ⟨c, word, rfl⟩ := List.exists_cons_of_ne_nil hne
    rintro _ ⟨⟩
    simp [hword c List.mem_cons_self]
  have hin : ∀ c ∈ word, (!isSpace c) = true := by
    intro c hc
    simp [hword c hc]
  have hout : ∀ c ∈ rest.head?, ¬ (!isSpace c) = true := by
    intro c hc
    simp [hrest c hc]
  simp only [scanWord, hskip, takeWhile_stops hin hout, dropWhile_stops hin hout, if_neg hne]

/-- A string that `scanf("%ms")` can deliver. -/
structure IsWord (name : CString) : Prop where
  some_name : name.bytes ≠ []
  one_word : ∀ c ∈ name.bytes, isSpace c = false

theorem IsWord.scanField {name : CString} (h : IsWord name) {blank rest : List UInt8}
    (hblank : ∀ c ∈ blank, isSpace c) (hrest : ∀ c ∈ rest.head?, isSpace c) :
    scanField (blank ++ (name.bytes ++ rest)) = .ok (name, rest) := by
  have hword := scanWord_word hblank h.some_name h.one_word hrest
  simp only [Client.scanField, hword, CString.ofBuffer_bytes]

theorem scanCredentials_lines {user password : CString} (hu : IsWord user) (hp : IsWord password) :
    scanCredentials (user.bytes ++ newline :: (password.bytes ++ [newline])) = .ok (user, password) := by
  have hspace : isSpace newline := by decide
  have huser : scanField (user.bytes ++ newline :: (password.bytes ++ [newline])) =
      .ok (user, newline :: (password.bytes ++ [newline])) := by
    simpa using @IsWord.scanField _ hu [] (newline :: (password.bytes ++ [newline])) (by simp)
      (by simpa using hspace)
  have hpassword : scanField (newline :: (password.bytes ++ [newline])) = .ok (password, [newline]) := by
    simpa using @IsWord.scanField _ hp [newline] [newline] (by simpa using hspace) (by simpa using hspace)
  simp only [scanCredentials, huser, hpassword, ok_bind, pure_eq_ok]

theorem skipLine_append {rest : List UInt8} (h : newline ∉ rest) (z : List UInt8) :
    skipLine (rest ++ newline :: z) = z := by
  rw [skipLine, dropWhile_stops (ne_newline h) (by simp)]
  rfl

theorem getLine_newline {line : List UInt8} (h : newline ∉ line) (more : List UInt8) :
    getLine (line ++ newline :: more) = ((line.length + 1 : Int), line ++ [newline, 0], more) := by
  have hne : line ++ newline :: more ≠ [] := by simp
  have hstop : ∀ c ∈ (newline :: more).head?, ¬ decide (c ≠ newline) = true := by simp
  simp only [getLine, if_neg hne, takeWhile_stops (ne_newline h) hstop,
    dropWhile_stops (ne_newline h) hstop]
  simp

theorem getLine_end {line : List UInt8} (h : newline ∉ line) (hne : line ≠ []) :
    getLine line = ((line.length : Int), line ++ [0], []) := by
  have htake := takeWhile_stops (b := []) (ne_newline h) (by simp)
  have hdrop := dropWhile_stops (b := []) (ne_newline h) (by simp)
  rw [List.append_nil] at htake hdrop
  simp only [getLine, if_neg hne, htake, hdrop]
  simp

def gotLine (line : List UInt8) : Option (List UInt8) → Int × List UInt8
  | none => if line = [] then (-1, []) else (line.length, line ++ [0])
  | some _ => (line.length + 1, line ++ [newline, 0])

namespace Typed
variable {stdin line : List UInt8} {name : CString} {after : Option (List UInt8)}

theorem scanWord_eq (h : Typed stdin name line after) : ∃ rest, newline ∉ rest ∧
    scanWord stdin = (some name.bytes, rest ++ newline :: (line ++ lineEnd after)) := by
  obtain ⟨blank, rest, rfl, hblank, hhead, hrest⟩ := h.input
  refine ⟨rest, hrest, scanWord_word hblank h.some_name h.one_word ?_⟩
  intro c hc
  cases rest with
  | nil =>
    cases hc
    decide
  | cons d rest => exact hhead c hc

theorem getLine_eq (h : Typed stdin name line after) : ∃ later,
    getLine (line ++ lineEnd after) = ((gotLine line after).1, (gotLine line after).2, later) := by
  cases after with
  | some more => exact ⟨more, getLine_newline h.one_line more⟩
  | none =>
    refine ⟨[], ?_⟩
    rw [lineEnd, List.append_nil, gotLine]
    by_cases hline : line = []
    · subst hline
      rfl
    · rw [getLine_end h.one_line hline, if_neg hline]

end Typed

def typedChat (name : CString) (len : UInt16) (message : List UInt8) : MessageChat :=
  let toUserLen := UInt16.ofNat name.strlen
  ⟨⟨MAGIC, UInt16.ofNat (sizeofMessageHeader + toUserLen.toNat + len.toNat), MSG_TYPE_CHAT_MSG⟩,
    toUserLen, .live name.bytes, len, .live message⟩

def created (o : ByteOrder) (memory later : List UInt8) (msgChat : MessageChat) : Created :=
  let (buff, buffUsed) := encodeMessageSend o msgChat memory 0
  ⟨buff, buffUsed, msgChat.header.len.toNat, later⟩

section
variable {o : ByteOrder} {stdin line : List UInt8} {name : CString} {after : Option (List UInt8)}

theorem Typed.createMessage_eq (h : Typed stdin name line after) (memory : List UInt8) : ∃ later,
    createMessage o memory stdin 0 = (do
      let len := UInt16.ofInt (gotLine line after).1
      let message ← terminate (gotLine line after).2 len
      return created o memory later (typedChat name len message)) := by
  obtain ⟨rest, hrest, hscan⟩ := h.scanWord_eq
  obtain ⟨later, hline⟩ := h.getLine_eq
  refine ⟨later, ?_⟩
  simp only [createMessage, hscan, ok_bind, skipLine_append hrest, hline, CString.ofBuffer_bytes]
  rfl

theorem created_eq {len : UInt16} {message a b : List UInt8} (memory later : List UInt8)
    (hlen : len.toNat ≤ message.length) (ha : a = name.bytes.take (UInt16.ofNat name.strlen).toNat)
    (hb : b = message.take len.toNat) :
    let p := created o memory later (typedChat name len message)
    p.buff.take p.buffUsed = packet MSG_TYPE_CHAT_MSG a b ∧
      p.buffUsed = (packet MSG_TYPE_CHAT_MSG a b).length ∧
      p.allocd = (packetHeader MSG_TYPE_CHAT_MSG a b).len.toNat := by
  have hname : (UInt16.ofNat name.strlen).toNat ≤ name.bytes.length := by
    rw [UInt16.toNat_ofNat']
    exact Nat.mod_le _ _
  have haLen : (UInt16.ofNat name.strlen).toNat = a.length := by
    rw [ha, List.length_take, Nat.min_eq_left hname]
  have hbLen : len.toNat = b.length := by rw [hb, List.length_take, Nat.min_eq_left hlen]
  have hheader : (typedChat name len message).header = packetHeader MSG_TYPE_CHAT_MSG a b := by
    simp only [typedChat, packetHeader, haLen, hbLen]
  have hsend : encodeMessageSend o (typedChat name len message) memory 0 =
      (packet MSG_TYPE_CHAT_MSG a b ++ memory.drop (packet MSG_TYPE_CHAT_MSG a b).length,
        (packet MSG_TYPE_CHAT_MSG a b).length) := by
    have htake := encodeMessageSend_take o (typedChat name len message).header (UInt16.ofNat name.strlen) len
      name.bytes message memory
    rw [← ha, ← hb] at htake
    exact htake.symm.trans (hheader ▸ encodeMessageSend_eq haLen hbLen memory)
  simp only [created, hsend, hheader, List.take_left, and_self]

end

end Client
end TeamsInC
