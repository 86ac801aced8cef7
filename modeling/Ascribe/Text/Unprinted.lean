/-!
# Characters without a printed shape of their own

A quoted text shows these characters by their number: controls, blanks other than
the space, invisible format characters, marks that join the character before them,
private and unassigned code points.

The table has all of them below U+0800 and from U+40000 on.  In between it has all blanks,
format characters and private code points, and the marks that are common to several scripts.
Left out are the marks of single scripts and the unassigned code points in between, such as
U+0941 and U+0984, which count as printed here.
-/

namespace Ascribe.Text

/-- Ranges of code points that are shown by number, ascending, both ends included. -/
def unprintedRanges : List (Nat × Nat) :=
  [ -- controls, the blank that does not break and the soft hyphen
    (0x0000, 0x001F), (0x007F, 0x00A0), (0x00AD, 0x00AD),
    -- combining marks
    (0x0300, 0x036F),
    -- Greek, Cyrillic and Armenian
    (0x0378, 0x0379), (0x0380, 0x0383), (0x038B, 0x038B), (0x038D, 0x038D), (0x03A2, 0x03A2),
    (0x0483, 0x0489), (0x0530, 0x0530), (0x0557, 0x0558), (0x058B, 0x058C),
    -- Hebrew
    (0x0590, 0x05BD), (0x05BF, 0x05BF), (0x05C1, 0x05C2), (0x05C4, 0x05C5), (0x05C7, 0x05CF),
    (0x05EB, 0x05EE),
    -- Arabic, Syriac, Thaana and NKo
    (0x05F5, 0x0605), (0x0610, 0x061A), (0x061C, 0x061C), (0x064B, 0x065F), (0x0670, 0x0670),
    (0x06D6, 0x06DD), (0x06DF, 0x06E4), (0x06E7, 0x06E8), (0x06EA, 0x06ED), (0x070E, 0x070F),
    (0x0711, 0x0711), (0x0730, 0x074C), (0x07A6, 0x07B0), (0x07B2, 0x07BF), (0x07EB, 0x07F3),
    (0x07FB, 0x07FD),
    -- blanks and format characters of other scripts, combining extensions
    (0x0890, 0x0891), (0x08E2, 0x08E2), (0x1680, 0x1680), (0x180B, 0x180F), (0x1AB0, 0x1ACE),
    (0x1DC0, 0x1DFF),
    -- blanks of given width, joiners, direction marks, marks of symbols
    (0x2000, 0x200F), (0x2028, 0x202F), (0x205F, 0x206F), (0x20D0, 0x20F0),
    -- the wide blank and the marks of its block
    (0x3000, 0x3000), (0x302A, 0x302F), (0x3099, 0x309A),
    -- private use
    (0xE000, 0xF8FF),
    -- variation selectors, combining halves, the byte order mark, specials
    (0xFE00, 0xFE0F), (0xFE20, 0xFE2F), (0xFEFF, 0xFEFF), (0xFFF0, 0xFFFB), (0xFFFE, 0xFFFF),
    -- format characters of numbers, hieroglyphs, shorthand and music
    (0x110BD, 0x110BD), (0x110CD, 0x110CD), (0x13430, 0x13438), (0x1BCA0, 0x1BCA3),
    (0x1D173, 0x1D17A),
    -- the planes without characters, tags, supplementary selectors and the private planes
    (0x40000, 0x10FFFF) ]

/-- Whether a character is shown by its number. -/
def isUnprinted (c : Char) : Bool :=
  unprintedRanges.any fun range => range.1 ≤ c.toNat && c.toNat ≤ range.2

end Ascribe.Text
