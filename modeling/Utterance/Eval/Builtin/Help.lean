/-!
# The quick reference
-/

namespace Utterance

/-- What the language tells of itself when it is asked for help. -/
def helpText : String :=
  "
UTTR Quick Reference:
--------------------
Variables:      put 10 in x;
Constants:      keep 3.14 as pi;
Print:          show x;
Comments:       $ single line
                $[ multi-line ]$

Conditionals:   when x > 10:
                    show \"big\";
                otherwise:
                    show \"small\";
                end;

Loops:          cycle n from 1 to 10:
                    show n;
                end;
                
                cycle each item through list:
                    show item;
                end;
                
                as long as x < 100:
                    put x + 1 in x;
                end;

Lists:          put [1, 2, 3] in nums;
                show nums @ 0;

Dictionaries:   put \x7b\"name\": \"Alice\", \"age\": 25\x7d in person;
                show person @ \"name\";
                put \"Bob\" in person @ \"name\";

Functions:      make function greet(name):
                    show \"Hello \" + name;
                end;
                
                make function add(a, b):
                    give a + b;
                end;

Built-ins:      show, input, input_int, len, append, 
                pop, extend, keys, values, has_key, 
                remove, run, help, exit, clear

For full documentation, see README.md
"

end Utterance
