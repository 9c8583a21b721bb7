import BlockStudio.Key
import BlockStudio.Table

/-!
Keys of a keyboard, named by their place on it, and the names by which scripts know some of them.
-/
namespace BlockStudio

structure KeyCode where
  name : String
deriving Repr, DecidableEq

namespace KeyCode

def letters : List Char := "ABCDEFGHIJKLMNOPQRSTUVWXYZ".toList

def digits : List Char := "0123456789".toList

def numbered (stem : String) (count : Nat) : List String :=
  (List.range count).map fun i => stem ++ Nat.repr (i + 1)

def names : List String :=
  letters.map ("Key".push ·) ++ digits.map ("Digit".push ·) ++
    digits.map ("Numpad".push ·) ++ numbered "F" 35 ++ numbered "Lang" 5
    ++ ["Backquote", "Backslash", "BracketLeft", "BracketRight", "Comma", "Equal", "IntlBackslash",
      "IntlRo", "IntlYen", "Minus", "Period", "Quote", "Semicolon", "Slash", "AltLeft", "AltRight",
      "Backspace", "CapsLock", "ContextMenu", "ControlLeft", "ControlRight", "Enter", "SuperLeft",
      "SuperRight", "ShiftLeft", "ShiftRight", "Space", "Tab", "Convert", "KanaMode", "NonConvert",
      "Delete", "End", "Help", "Home", "Insert", "PageDown", "PageUp", "ArrowDown", "ArrowLeft",
      "ArrowRight", "ArrowUp", "NumLock", "NumpadAdd", "NumpadBackspace", "NumpadClear",
      "NumpadClearEntry", "NumpadComma", "NumpadDecimal", "NumpadDivide", "NumpadEnter",
      "NumpadEqual", "NumpadHash", "NumpadMemoryAdd", "NumpadMemoryClear", "NumpadMemoryRecall",
      "NumpadMemoryStore", "NumpadMemorySubtract", "NumpadMultiply", "NumpadParenLeft",
      "NumpadParenRight", "NumpadStar", "NumpadSubtract", "Escape", "Fn", "FnLock", "PrintScreen",
      "ScrollLock", "Pause", "BrowserBack", "BrowserFavorites", "BrowserForward", "BrowserHome",
      "BrowserRefresh", "BrowserSearch", "BrowserStop", "Eject", "LaunchApp1", "LaunchApp2",
      "LaunchMail", "MediaPlayPause", "MediaSelect", "MediaStop", "MediaTrackNext",
      "MediaTrackPrevious", "Power", "Sleep", "AudioVolumeDown", "AudioVolumeMute", "AudioVolumeUp",
      "WakeUp", "Meta", "Hyper", "Turbo", "Abort", "Resume", "Suspend", "Again", "Copy", "Cut",
      "Find", "Open", "Paste", "Props", "Select", "Undo", "Hiragana", "Katakana"]

def ofName? (name : String) : Option KeyCode := if names.contains name then some ⟨name⟩ else none

/-- The keys, besides letters and digits, that scripts know, each with the name they know it by. -/
def scripted : List (String × String) :=
  [("Space", "space"), ("ArrowUp", "up"), ("ArrowDown", "down"), ("ArrowLeft", "left"),
    ("ArrowRight", "right"), ("Enter", "enter"), ("NumpadEnter", "enter"), ("Escape", "escape"),
    ("ShiftLeft", "shift"), ("ShiftRight", "shift")]

/-- The name by which scripts know a key, if they do. -/
def scriptName? (k : KeyCode) : Option String :=
  match k.name.toList with
  | ['K', 'e', 'y', c] => some (Text.lowerAscii (.singleton c))
  | ['D', 'i', 'g', 'i', 't', c] => some (.singleton c)
  | _ => Table.search k.name scripted

def f5 : KeyCode := ⟨"F5"⟩
def letterS : KeyCode := ⟨"KeyS"⟩
def controlLeft : KeyCode := ⟨"ControlLeft"⟩
def controlRight : KeyCode := ⟨"ControlRight"⟩

end KeyCode

end BlockStudio
